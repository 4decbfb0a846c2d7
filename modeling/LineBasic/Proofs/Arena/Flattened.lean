import LineBasic.Proofs.Arena.Postorder

/-!
# Reading tags off an arena

The tags of a program can be read off its arena again, from the root on. Words, operators, commas and parentheses
follow from the kinds of the nodes; a relational operator and the name of a function are looked up at the token of
their node. What comes out is what the tree itself says.

## Main definitions

* `Mark`: a tag that is read off a tree.
* `NodeTag.marks`: the marks of a node, from those of its children.
* `Arena.flatten`: the marks of an arena.
* `Expr.marks`, `Stmt.marks`, `Line.marks`, `Grammar.marks`: the marks of the parts of a tree.

## Main results

* `Arena.Bears.map_marksBelow`: reading off a forest that stands in an arena.
* `Expr.SpelledBy.flattens`, `Stmt.SpelledBy.flats_eq`, `Grammar.SpelledBy.flats_eq`: the forest of a tree has its
  marks.
* `Grammar.flatten_ofLines`: the marks of the arena of a program.
* `Grammar.perm_tokens`: each token of a node is read off once.
-/

namespace LineBasic

open Forest

/-- A tag that is read off a tree, with the position of its token if a node keeps it. -/
abbrev Mark := Tag × Option TokenId

/-- A tag and, below it, the marks of a node. -/
abbrev Flat := NodeTag × List Mark

namespace NodeTag

/-- The operator in front of a term or a factor. -/
def operator : NodeTag → List Mark
  | .term s => [(.sign s, none)]
  | .factor o => [(.scale o, none)]
  | _ => []

/-- The operator in front of the first term or factor: only a minus is written there. -/
def opening : NodeTag → List Mark
  | .term .minus => [(.sign .minus, none)]
  | _ => []

/-- The marks of terms or of factors, with their operators. -/
def joined : List Flat → List Mark
  | [] => []
  | c :: cs => c.1.opening ++ c.2 ++ cs.flatMap fun c => c.1.operator ++ c.2

/-- The marks of an operand. An expression stands in parentheses. -/
def enclosed (c : Flat) : List Mark :=
  if c.1 = .expression then (.lparen, none) :: c.2 ++ [(.rparen, none)] else c.2

/-- Marks with commas between them. -/
def commas : List Flat → List Mark
  | [] => []
  | c :: cs => c.2 ++ cs.flatMap fun c => (.comma, none) :: c.2

/-- The tag of a token. -/
def tagAt (tags : List Tag) (token : Option TokenId) : Tag := (token.bind (tags[·]?)).getD .invalid

/-- The marks of a node with a token, given the tags and the marks of its children. -/
def marks (tags : List Tag) (token : Option TokenId) (cs : List Flat) : NodeTag → List Mark
  | .root => cs.flatMap Prod.snd
  | .nakedLine => cs.flatMap Prod.snd ++ [(.eol, none)]
  | .markedLine => (.number, token) :: cs.flatMap Prod.snd ++ [(.eol, none)]
  | .print => (.keyword .print, token) :: commas cs
  | .input => (.keyword .input, token) :: commas cs
  | .assign => (.keyword .let, none) :: (.var, token) :: (.comparison .eq, none) :: cs.flatMap Prod.snd
  | .branch =>
    match cs with
    | [condition, body] => (.keyword .if, token) :: condition.2 ++ (.keyword .then, none) :: body.2
    | _ => []
  | .goto => (.keyword .goto, token) :: cs.flatMap Prod.snd
  | .gosub => (.keyword .gosub, token) :: cs.flatMap Prod.snd
  | .action a => [(.keyword a.keyword, token)]
  | .string => [(.string, token)]
  | .expression => joined cs
  | .term _ => joined cs
  | .factor _ => cs.flatMap enclosed
  | .predicate =>
    match cs with
    | [left, right] => left.2 ++ (tagAt tags token, token) :: right.2
    | _ => []
  | .var => [(.var, token)]
  | .number => [(.number, token)]
  | .call => (tagAt tags token, token) :: (.lparen, none) :: commas cs ++ [(.rparen, none)]

end NodeTag

namespace Arena

/-- The tag of a node and the marks of the tree below it, which has at most `n` nodes on top of one another. -/
def marksBelow (tags : List Tag) (a : Arena) : (n : Nat) → NodeId → Flat
  | 0, _ => (.root, [])
  | n + 1, i =>
    match a.nodes[i]? with
    | none => (.root, [])
    | some node => (node.tag, node.tag.marks tags node.token ((a.references node).map (a.marksBelow tags n)))

/-- The marks of an arena, read off from the first node on. -/
def flatten (tags : List Tag) (a : Arena) : List Mark := (a.marksBelow tags a.nodes.size 0).2

end Arena

namespace Forest

/-- The tags of the roots and the marks of the trees. -/
def flats (tags : List Tag) : Forest → List Flat
  | empty => []
  | grow f tag token ks => f.flats tags ++ [(tag, tag.marks tags token (ks.flats tags))]

variable {tags : List Tag} {tag : NodeTag} {token : Option TokenId} {ks : Forest}

theorem flats_append (f g : Forest) : (f ++ g).flats tags = f.flats tags ++ g.flats tags := by
  induction g with
  | empty => exact (List.append_nil _).symm
  | grow g tag token ks ih _ => rw [append_grow, flats, flats, ih, List.append_assoc]

@[simp] theorem flats_tree : (tree tag token ks).flats tags = [(tag, tag.marks tags token (ks.flats tags))] := rfl

end Forest

namespace Arena

variable {tags : List Tag} {a : Arena} {f : Forest} {start offset n : Nat}

/-- Reading off the roots of a forest that stands in an arena gives the marks of its trees. -/
theorem Bears.map_marksBelow (h : a.Bears f start offset) (hconforms : f.Conforms tags) (hn : f.size ≤ n) :
    (f.roots start).map (a.marksBelow tags n) = f.flats tags := by
  induction f generalizing start offset n with
  | empty => rfl
  | grow f tag token ks ihf ihks =>
    obtain ⟨hf, hks, hnode, hrange⟩ := h
    rw [size] at hn
    obtain ⟨m, rfl⟩ := Nat.exists_eq_succ_of_ne_zero (show n ≠ 0 by omega)
    have htree : a.Bears (tree tag token ks) (start + f.size) (offset + f.slots) := ⟨trivial, hks, hnode, hrange⟩
    have hreferences := htree.references_eq ⟨trivial, hconforms.2⟩ hnode
    rw [roots, List.map_append, ihf hf hconforms.1 (by omega), List.map_singleton, marksBelow, hnode, flats]
    simp only [NodeTag.node_tag, NodeTag.node_token]
    rw [hreferences, ihks hks hconforms.2.1 (by omega)]

/-- Reading off an arena that a regular forest makes up. -/
theorem Stores.flatten_eq (h : a.Stores f) (hconforms : f.Conforms tags) :
    a.flatten tags = (f.flats tags).flatMap Prod.snd := by
  rw [flatten, h.size_nodes, marksBelow, h.getElem?_zero]
  simp only [h.references_rootOf]
  rw [h.bears.map_marksBelow hconforms (Nat.le_refl _)]
  rfl

end Arena

/-! ### The marks of a tree -/

/-- The marks of an expression. -/
def Expr.marks : {l : Level} → ParsedExpr l → List Mark
  | _, .var v => [(.var, some v)]
  | _, .number n => [(.number, some n)]
  | _, .group e => (.lparen, none) :: e.marks ++ [(.rparen, none)]
  | _, .abs mark e => (.builtin .abs, some mark) :: (.lparen, none) :: e.marks ++ [(.rparen, none)]
  | _, .rnd mark e => (.builtin .rnd, some mark) :: (.lparen, none) :: e.marks ++ [(.rparen, none)]
  | _, .mod mark e₁ e₂ =>
    (.builtin .mod, some mark) :: (.lparen, none) :: e₁.marks ++ (.comma, none) :: e₂.marks ++ [(.rparen, none)]
  | _, .factor a => a.marks
  | _, .scale p o a => p.marks ++ (.scale o, none) :: a.marks
  | _, .signed .plus p => p.marks
  | _, .signed .minus p => (.sign .minus, none) :: p.marks
  | _, .add e s p => e.marks ++ (.sign s, none) :: p.marks

/-- The marks of an item of PRINT. -/
def Item.marks : ParsedItem → List Mark
  | .text s => [(.string, some s)]
  | .value e => e.marks

/-- The marks of the members of a list, each behind a comma. -/
def marksBehindCommas {α : Type} (marks : α → List Mark) (xs : List α) : List Mark :=
  xs.flatMap fun x => (.comma, none) :: marks x

/-- The mark of a variable of INPUT. -/
def variableMarks (v : TokenId) : List Mark := [(.var, some v)]

/-- The marks of a statement. -/
def Stmt.marks : ParsedStmt → List Mark
  | .print mark item more => (.keyword .print, some mark) :: item.marks ++ marksBehindCommas Item.marks more
  | .input mark v more => (.keyword .input, some mark) :: variableMarks v ++ marksBehindCommas variableMarks more
  | .assign v e => (.keyword .let, none) :: (.var, some v) :: (.comparison .eq, none) :: e.marks
  | .branch mark e₁ r relation e₂ body =>
    (.keyword .if, some mark) :: e₁.marks ++ (.comparison r, some relation) :: e₂.marks ++
      (.keyword .then, none) :: body.marks
  | .goto mark e => (.keyword .goto, some mark) :: e.marks
  | .gosub mark e => (.keyword .gosub, some mark) :: e.marks
  | .action mark a => [(.keyword a.keyword, some mark)]

/-- The marks of a line, with that of its end. -/
def Line.marks (line : ParsedLine) : List Mark :=
  match line.number with
  | some n => (.number, some n) :: line.body.marks ++ [(.eol, none)]
  | none => line.body.marks ++ [(.eol, none)]

/-- The marks of the lines of a program. -/
def Grammar.marks (lines : List ParsedLine) : List Mark := lines.flatMap Line.marks

/-! ### The forest of a tree has its marks -/

namespace NodeTag

@[simp] theorem joined_singleton (c : Flat) : joined [c] = c.1.opening ++ c.2 := by simp [joined]

theorem joined_append_singleton {cs : List Flat} (hcs : cs ≠ []) (c : Flat) :
    joined (cs ++ [c]) = joined cs ++ (c.1.operator ++ c.2) := by
  obtain ⟨c', cs, rfl⟩ := List.exists_cons_of_ne_nil hcs
  simp [joined]

theorem tagAt_of_getElem? {tags : List Tag} {t : TokenId} {u : Tag} (h : tags[t]? = some u) :
    tagAt tags (some t) = u := by
  rw [tagAt, Option.bind_some, h]
  rfl

end NodeTag

open NodeTag

section Flats

variable {tags : List Tag} {ls : List Leaf}

/-- The forest of an expression has its marks: an operand is put in parentheses if it is an expression, and terms and
factors are joined. -/
def Expr.Flattens (tags : List Tag) : {l : Level} → ParsedExpr l → Prop
  | .operand, e => ∃ c, e.forest.flats tags = [c] ∧ enclosed c = e.marks
  | .product, e => e.forest.flats tags ≠ [] ∧ joined (e.forest.flats tags) = e.marks
  | .sum, e => e.forest.flats tags ≠ [] ∧ joined (e.forest.flats tags) = e.marks

theorem Expr.SpelledBy.flattens {l : Level} {e : ParsedExpr l} (h : e.SpelledBy ls) (hls : LeavesIn tags ls) :
    e.Flattens tags := by
  -- An operator joins a member to those in front of it, so a statement about sums and products must say that there
  -- is one.
  induction h with
  | var v => exact ⟨_, rfl, rfl⟩
  | number n => exact ⟨_, rfl, rfl⟩
  | group i j _ ih =>
    obtain ⟨-, hjoined⟩ := ih hls.left.tail
    refine ⟨_, rfl, ?_⟩
    rw [enclosed, if_pos rfl, NodeTag.marks, hjoined]
    rfl
  | abs mark i j _ ih =>
    obtain ⟨-, hjoined⟩ := ih hls.left.tail.tail
    have hmark := tagAt_of_getElem? (hls.tag (.builtin .abs, mark) (by simp))
    refine ⟨_, rfl, ?_⟩
    simp [enclosed, NodeTag.marks, commas, flats_tree, hjoined, hmark, Expr.marks]
  | rnd mark i j _ ih =>
    obtain ⟨-, hjoined⟩ := ih hls.left.tail.tail
    have hmark := tagAt_of_getElem? (hls.tag (.builtin .rnd, mark) (by simp))
    refine ⟨_, rfl, ?_⟩
    simp [enclosed, NodeTag.marks, commas, flats_tree, hjoined, hmark, Expr.marks]
  | mod mark i j k _ _ ih₁ ih₂ =>
    obtain ⟨-, hfirst⟩ := ih₁ hls.left.left.tail.tail
    obtain ⟨-, hsecond⟩ := ih₂ hls.left.right.tail
    have hmark := tagAt_of_getElem? (hls.tag (.builtin .mod, mark) (by simp))
    refine ⟨_, rfl, ?_⟩
    simp [enclosed, NodeTag.marks, commas, flats_append, hfirst, hsecond, hmark, Expr.marks]
  | factor _ ih =>
    obtain ⟨c, hc, henclosed⟩ := ih hls
    refine ⟨List.cons_ne_nil _ _, ?_⟩
    simp [forest, opening, NodeTag.marks, hc, henclosed, Expr.marks]
  | scale o i _ _ ihp iha =>
    obtain ⟨hne, hjoined⟩ := ihp hls.left
    obtain ⟨c, hc, henclosed⟩ := iha hls.right.tail
    rw [Expr.Flattens, forest, flats_append, flats_tree, joined_append_singleton hne, hjoined]
    refine ⟨by simp, ?_⟩
    simp [operator, NodeTag.marks, hc, henclosed, Expr.marks]
  | unsigned _ ih =>
    obtain ⟨-, hjoined⟩ := ih hls
    refine ⟨List.cons_ne_nil _ _, ?_⟩
    simp [forest, opening, NodeTag.marks, hjoined, Expr.marks]
  | signed s i _ ih =>
    obtain ⟨-, hjoined⟩ := ih hls.tail
    refine ⟨List.cons_ne_nil _ _, ?_⟩
    cases s <;> simp [forest, opening, NodeTag.marks, hjoined, Expr.marks]
  | add s i _ _ ihe ihp =>
    obtain ⟨hne, hjoined⟩ := ihe hls.left
    obtain ⟨-, hlast⟩ := ihp hls.right.tail
    rw [Expr.Flattens, forest, flats_append, flats_tree, joined_append_singleton hne, hjoined]
    refine ⟨by simp, ?_⟩
    simp [operator, NodeTag.marks, hlast, Expr.marks]

theorem Expr.SpelledBy.flats_whole {e : ParsedExpr .sum} (h : e.SpelledBy ls) (hls : LeavesIn tags ls) :
    e.wholeForest.flats tags = [(.expression, e.marks)] := by
  obtain ⟨-, hjoined⟩ := h.flattens hls
  rw [Expr.wholeForest, flats_tree, NodeTag.marks, hjoined]

theorem Item.SpelledBy.flats_eq {item : ParsedItem} (h : item.SpelledBy ls) (hls : LeavesIn tags ls) :
    ∃ tag, item.forest.flats tags = [(tag, item.marks)] := by
  cases h with
  | text s => exact ⟨_, rfl⟩
  | value he => exact ⟨_, he.flats_whole hls⟩

theorem VariableSpelledBy.flats_eq {v : TokenId} (_ : VariableSpelledBy v ls) (_ : LeavesIn tags ls) :
    ∃ tag, (tree .var (some v) empty).flats tags = [(tag, variableMarks v)] :=
  ⟨_, rfl⟩

/-- The trees of the members of a list have their marks, with a comma in front of each. -/
theorem ListSpelledBy.flats_eq {α : Type} {spelled : α → List Leaf → Prop} {forest : α → Forest}
    {marks : α → List Mark} {xs : List α} (hxs : ListSpelledBy (Behind .comma spelled) xs ls) (hls : LeavesIn tags ls)
    (h : ∀ x ls, spelled x ls → LeavesIn tags ls → ∃ tag, (forest x).flats tags = [(tag, marks x)]) :
    ((ofList forest xs).flats tags).flatMap (fun c => (.comma, none) :: c.2) = marksBehindCommas marks xs := by
  induction hxs with
  | nil => rfl
  | cons hx _ ih =>
    obtain ⟨i, ls', rfl, hx⟩ := hx
    obtain ⟨tag, htree⟩ := h _ _ hx hls.left.tail
    rw [ofList, flats_append, List.flatMap_append, ih hls.right, htree, List.flatMap_singleton]
    rfl

theorem Stmt.SpelledBy.flats_eq {s : ParsedStmt} (h : s.SpelledBy ls) (hls : LeavesIn tags ls) :
    ∃ tag, s.forest.flats tags = [(tag, s.marks)] := by
  induction h with
  | print mark hitem hmore =>
    obtain ⟨tag, hfirst⟩ := hitem.flats_eq hls.left.tail
    have hrest := hmore.flats_eq hls.right fun _ _ => Item.SpelledBy.flats_eq
    refine ⟨.print, ?_⟩
    rw [Stmt.forest, flats_tree, ofList, flats_append, hfirst, NodeTag.marks, List.singleton_append, commas, hrest]
    rfl
  | input mark hv hmore =>
    have hrest := hmore.flats_eq hls.right fun _ _ => VariableSpelledBy.flats_eq
    refine ⟨.input, ?_⟩
    rw [Stmt.forest, flats_tree, ofList, flats_append, flats_tree, NodeTag.marks, List.singleton_append, commas, hrest]
    rfl
  | assign i j he =>
    refine ⟨.assign, ?_⟩
    rw [Stmt.forest, flats_tree, he.flats_whole hls.tail.tail.tail, NodeTag.marks, List.flatMap_singleton]
    rfl
  | branch mark r relation i he₁ he₂ _ ih =>
    obtain ⟨tag, hbody⟩ := ih hls.right.tail
    have hrelation := tagAt_of_getElem? (hls.tag (.comparison r, relation) (by simp))
    refine ⟨.branch, ?_⟩
    rw [Stmt.forest, flats_tree, flats_append, flats_tree, flats_append, he₁.flats_whole hls.left.left.tail,
      he₂.flats_whole hls.left.right.tail, hbody]
    simp [NodeTag.marks, hrelation, Stmt.marks]
  | goto mark he =>
    refine ⟨.goto, ?_⟩
    rw [Stmt.forest, flats_tree, he.flats_whole hls.tail, NodeTag.marks, List.flatMap_singleton]
    rfl
  | gosub mark he =>
    refine ⟨.gosub, ?_⟩
    rw [Stmt.forest, flats_tree, he.flats_whole hls.tail, NodeTag.marks, List.flatMap_singleton]
    rfl
  | action mark a => exact ⟨_, rfl⟩

theorem Grammar.LineSpelledBy.flats_eq {line? : Option ParsedLine} (h : LineSpelledBy line? ls)
    (hls : LeavesIn tags ls) :
    ((Grammar.forest line?.toList).flats tags).flatMap Prod.snd = Grammar.marks line?.toList := by
  cases h with
  | empty => rfl
  | number n => rfl
  | naked hs =>
    obtain ⟨tag, hbody⟩ := hs.flats_eq hls
    simp [Grammar.forest, ofList, Line.forest, hbody, NodeTag.marks, Grammar.marks, Line.marks]
  | marked n hs =>
    obtain ⟨tag, hbody⟩ := hs.flats_eq hls.tail
    simp [Grammar.forest, ofList, Line.forest, hbody, NodeTag.marks, Grammar.marks, Line.marks]

theorem Grammar.SpelledBy.flats_eq {lines : List ParsedLine} (h : SpelledBy lines ls) (hls : LeavesIn tags ls) :
    ((Grammar.forest lines).flats tags).flatMap Prod.snd = Grammar.marks lines := by
  induction h with
  | nil => rfl
  | last hline => exact hline.flats_eq hls
  | line i hline _ ih =>
    rw [Grammar.forest, ofList_append, flats_append, List.flatMap_append, Grammar.marks, List.flatMap_append]
    exact congrArg₂ _ (hline.flats_eq hls.left) (ih hls.right.tail)

/-- The marks of the arena of a program are those of its lines. -/
theorem Grammar.flatten_ofLines {front rest : List Tag} {lines : List ParsedLine}
    (h : SpelledBy lines (leavesOf front)) :
    (Arena.ofLines lines).flatten (front ++ rest) = Grammar.marks lines := by
  have hls := leavesIn_leavesOf front rest
  rw [(Arena.stores_ofLines lines).flatten_eq (h.spans hls).conforms, h.flats_eq hls]

end Flats

/-! ### Each token of a node is read off once -/

/-- The tokens of marks. -/
def tokensOf (ms : List Mark) : List TokenId := ms.filterMap Prod.snd

section Tokens

@[simp] theorem tokensOf_nil : tokensOf [] = [] := rfl

@[simp] theorem tokensOf_none (t : Tag) (ms : List Mark) : tokensOf ((t, none) :: ms) = tokensOf ms := rfl

@[simp] theorem tokensOf_some (t : Tag) (i : TokenId) (ms : List Mark) :
    tokensOf ((t, some i) :: ms) = i :: tokensOf ms := rfl

@[simp] theorem tokensOf_append (ms ms' : List Mark) : tokensOf (ms ++ ms') = tokensOf ms ++ tokensOf ms' :=
  List.filterMap_append

@[simp] theorem Forest.tokens_tree (tag : NodeTag) (token : Option TokenId) (ks : Forest) :
    (tree tag token ks).tokens = token.toList ++ ks.tokens := rfl

theorem Expr.tokensOf_marks {l : Level} (e : ParsedExpr l) : tokensOf e.marks = e.forest.tokens := by
  induction e with
  | var v => rfl
  | number n => rfl
  | group e ih => simpa [marks, forest] using ih
  | abs mark e ih | rnd mark e ih => simpa [marks, forest] using ih
  | mod mark e₁ e₂ ih₁ ih₂ => simp [marks, forest, tokens_append, ih₁, ih₂]
  | factor a ih => simpa [marks, forest] using ih
  | scale p o a ihp iha => simp [marks, forest, tokens_append, ihp, iha]
  | signed s p ih => cases s <;> simpa [marks, forest] using ih
  | add e s p ihe ihp => simp [marks, forest, tokens_append, ihe, ihp]

theorem Item.tokensOf_marks (item : ParsedItem) : tokensOf item.marks = item.forest.tokens := by
  cases item with
  | text s => rfl
  | value e => exact e.tokensOf_marks

theorem tokensOf_marksBehindCommas {α : Type} {marks : α → List Mark} {forest : α → Forest}
    (h : ∀ x, tokensOf (marks x) = (forest x).tokens) (xs : List α) :
    tokensOf (marksBehindCommas marks xs) = (ofList forest xs).tokens := by
  induction xs with
  | nil => rfl
  | cons x xs ih =>
    rw [ofList, tokens_append, ← ih, ← h]
    exact tokensOf_append (marks x) (marksBehindCommas marks xs)

/-- A condition keeps its relational operator, which stands between its sides. All other tokens are in the order of the
nodes. -/
theorem Stmt.perm_tokensOf_marks (s : ParsedStmt) : (tokensOf s.marks).Perm s.forest.tokens := by
  induction s with
  | print mark item more =>
    have hmore := tokensOf_marksBehindCommas Item.tokensOf_marks more
    simp [marks, forest, ofList, tokens_append, item.tokensOf_marks, hmore]
  | input mark v more =>
    have hmore : tokensOf (marksBehindCommas variableMarks more) =
        (ofList (fun v => tree .var (some v) empty) more).tokens := tokensOf_marksBehindCommas (fun _ => rfl) more
    simp [marks, forest, ofList, tokens_append, variableMarks, hmore, Forest.tokens]
  | assign v e => simp [marks, forest, Expr.wholeForest, e.tokensOf_marks]
  | branch mark e₁ r relation e₂ body ih =>
    simp only [marks, forest, Expr.wholeForest, tokens_append, tokens_tree, tokensOf_append, tokensOf_some,
      tokensOf_none, List.cons_append, Option.toList_some, Option.toList_none, List.nil_append, List.append_assoc,
      e₁.tokensOf_marks, e₂.tokensOf_marks]
    refine .cons _ (List.perm_middle.trans (.cons _ (.append_left _ (.append_left _ ih))))
  | goto mark e => simp [marks, forest, Expr.wholeForest, e.tokensOf_marks]
  | gosub mark e => simp [marks, forest, Expr.wholeForest, e.tokensOf_marks]
  | action mark a => exact .refl _

theorem Line.perm_tokensOf_marks (line : ParsedLine) : (tokensOf line.marks).Perm line.forest.tokens := by
  obtain ⟨number, body⟩ := line
  cases number with
  | none => simpa [marks, forest] using body.perm_tokensOf_marks
  | some n => simpa [marks, forest] using body.perm_tokensOf_marks

theorem Grammar.perm_tokensOf_marks (lines : List ParsedLine) :
    (tokensOf (Grammar.marks lines)).Perm (Grammar.forest lines).tokens := by
  induction lines with
  | nil => exact .nil
  | cons line lines ih =>
    rw [Grammar.marks, List.flatMap_cons, tokensOf_append, Grammar.forest, ofList, tokens_append]
    exact line.perm_tokensOf_marks.append ih

/-- The nodes of a forest keep its tokens. -/
theorem Forest.perm_tokens_nodes (f : Forest) (start offset : Nat) :
    ((f.nodes start offset).filterMap Node.token).Perm f.tokens := by
  induction f generalizing start offset with
  | empty => exact .nil
  | grow f tag token ks ihf ihks =>
    rw [nodes, List.filterMap_append, List.filterMap_append, tokens, List.append_assoc]
    refine .append (ihf _ _) ((List.Perm.append (ihks _ _) (.refl _)).trans ?_)
    have hlast : [tag.node token (offset + f.slots + ks.slots) (ks.roots (start + f.size))].filterMap Node.token =
        token.toList := by cases token <;> simp
    rw [hlast]
    exact List.perm_append_comm

/-- The tokens that are read off the arena of a program are those of its nodes. -/
theorem Grammar.perm_tokens (lines : List ParsedLine) :
    (tokensOf (Grammar.marks lines)).Perm ((Arena.ofLines lines).nodes.toList.filterMap Node.token) := by
  rw [(Arena.ofLines_eq_forest lines).1, List.filterMap_cons, NodeTag.node_token]
  exact (perm_tokensOf_marks lines).trans ((Grammar.forest lines).perm_tokens_nodes 1 0).symm

end Tokens

end LineBasic

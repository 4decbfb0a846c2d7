import LineBasic.Proofs.Arena.Forest

/-!
# Regular forests

The tag of a node says from which kind of token it is made and which children it has. The forests of parsed
programs keep to that, and the tokens of a tree stand in front of those of the next tree.

## Main definitions

* `NodeTag.Suits`, `NodeTag.Admits`: the token and the children that a tag prescribes.
* `Forest.Conforms`: every node has them.
* `Forest.Ordered`: the trees of each list stand in the order of their tokens.
* `Forest.Spans`: a regular forest made from the tokens of some leaves.

## Main results

* `Expr.SpelledBy.spans`, `Stmt.SpelledBy.spans`, `Grammar.SpelledBy.spans`: the forests of what leaves spell.
-/

namespace LineBasic

/-- How many arguments a function has. -/
def Builtin.arity : Builtin → Nat
  | .abs | .rnd => 1
  | .mod => 2

namespace NodeTag

/-- The nodes of lines. -/
def isLine : NodeTag → Bool
  | .nakedLine | .markedLine => true
  | _ => false

/-- The nodes of statements. -/
def isStatement : NodeTag → Bool
  | .print | .input | .assign | .branch | .goto | .gosub | .action _ => true
  | _ => false

/-- The nodes that PRINT may have as children. -/
def isItem : NodeTag → Bool
  | .string | .expression => true
  | _ => false

/-- The nodes of terms. -/
def isTerm : NodeTag → Bool
  | .term _ => true
  | _ => false

/-- The nodes of factors. -/
def isFactor : NodeTag → Bool
  | .factor _ => true
  | _ => false

/-- The nodes of operands. -/
def isOperand : NodeTag → Bool
  | .var | .number | .expression | .call => true
  | _ => false

/-- The nodes that have a token. -/
def hasToken : NodeTag → Bool
  | .root | .nakedLine | .expression | .term _ | .factor _ => false
  | _ => true

/-- The nodes whose left reference is present. -/
def hasLeft (tag : NodeTag) : Bool :=
  tag.hasRange || match tag with
    | .nakedLine | .markedLine | .branch | .goto | .gosub | .factor _ | .predicate => true
    | _ => false

/-- The nodes whose right reference is present. -/
def hasRight (tag : NodeTag) : Bool :=
  tag.hasRange || match tag with
    | .assign | .branch | .predicate => true
    | _ => false

/-- A node has a token of the kind that its tag takes, or none if its tag takes none. -/
def Suits (tags : List Tag) (tag : NodeTag) (token : Option TokenId) : Prop :=
  if tag.hasToken then ∃ t u, token = some t ∧ tags[t]? = some u ∧ tag.Takes u else token = none

/-- The tags that the children of a node may have, from left to right. -/
def Admits (tags : List Tag) (token : Option TokenId) (kinds : List NodeTag) : NodeTag → Prop
  | .root => ∀ k ∈ kinds, k.isLine
  | .nakedLine | .markedLine => ∃ k, kinds = [k] ∧ k.isStatement
  | .print => kinds ≠ [] ∧ ∀ k ∈ kinds, k.isItem
  | .input => kinds ≠ [] ∧ ∀ k ∈ kinds, k = .var
  | .assign | .goto | .gosub => kinds = [.expression]
  | .branch => ∃ k, kinds = [.predicate, k] ∧ k.isStatement
  | .action _ | .string | .var | .number => kinds = []
  | .expression => kinds ≠ [] ∧ ∀ k ∈ kinds, k.isTerm
  | .term _ => kinds ≠ [] ∧ ∀ k ∈ kinds, k.isFactor
  | .factor _ => ∃ k, kinds = [k] ∧ k.isOperand
  | .predicate => kinds = [.expression, .expression]
  | .call => ∃ t f, token = some t ∧ tags[t]? = some (.builtin f) ∧
    kinds = List.replicate f.arity .expression

end NodeTag

namespace Forest

/-- Every node has the token and the children that its tag prescribes. -/
def Conforms (tags : List Tag) : Forest → Prop
  | empty => True
  | grow f tag token ks =>
    f.Conforms tags ∧ ks.Conforms tags ∧ tag.Suits tags token ∧ tag.Admits tags token ks.tags

/-- The tokens of a tree stand in front of those of the trees behind it. -/
def Ordered : Forest → Prop
  | empty => True
  | grow f _ token ks => f.Ordered ∧ ks.Ordered ∧ ∀ t ∈ f.tokens, ∀ u ∈ token.toList ++ ks.tokens, t < u

end Forest

/-- The leaves stand in a list of tags where they say, one behind the other. -/
structure LeavesIn (tags : List Tag) (ls : List Leaf) : Prop where
  tag : ∀ l ∈ ls, tags[l.2]? = some l.1
  sorted : ls.Pairwise fun l l' => l.2 < l'.2

namespace LeavesIn

variable {tags : List Tag} {ls ls' : List Leaf} {l : Leaf}

theorem sublist (h : LeavesIn tags ls) (hsub : ls'.Sublist ls) : LeavesIn tags ls' :=
  ⟨fun l hl => h.tag l (hsub.subset hl), h.sorted.sublist hsub⟩

theorem left (h : LeavesIn tags (ls ++ ls')) : LeavesIn tags ls := h.sublist (List.sublist_append_left _ _)

theorem right (h : LeavesIn tags (ls ++ ls')) : LeavesIn tags ls' := h.sublist (List.sublist_append_right _ _)

theorem tail (h : LeavesIn tags (l :: ls)) : LeavesIn tags ls := h.sublist (List.sublist_cons_self _ _)

end LeavesIn

/-- The tags in front of some others stand where they say. -/
theorem leavesIn_leavesOf (front rest : List Tag) : LeavesIn (front ++ rest) (leavesOf front) := by
  constructor
  · intro l hl
    obtain ⟨hi, htag⟩ := List.mem_zipIdx' hl
    rw [List.getElem?_append_left hi, htag, List.getElem?_eq_getElem hi]
  · rw [List.pairwise_iff_getElem]
    intro i j hi hj hij
    simpa using hij

namespace Forest

variable {tags : List Tag} {ls ls' : List Leaf} {f g : Forest} {tag : NodeTag} {token : Option TokenId}

/-- The forest is regular, and its tokens are those of some leaves. -/
structure Spans (tags : List Tag) (ls : List Leaf) (f : Forest) : Prop where
  conforms : f.Conforms tags
  ordered : f.Ordered
  tokens : ∀ t ∈ f.tokens, ∃ u, (u, t) ∈ ls

theorem Conforms.append (hf : f.Conforms tags) (hg : g.Conforms tags) : (f ++ g).Conforms tags := by
  induction g with
  | empty => exact hf
  | grow g tag token ks ih _ => exact ⟨ih hg.1, hg.2⟩

theorem Ordered.append (hf : f.Ordered) (hg : g.Ordered) (h : ∀ t ∈ f.tokens, ∀ u ∈ g.tokens, t < u) :
    (f ++ g).Ordered := by
  induction g with
  | empty => exact hf
  | grow g tag token ks ih _ =>
    obtain ⟨hg, hks, hlast⟩ := hg
    refine ⟨ih hg fun t ht u hu => h t ht u (List.mem_append_left _ hu), hks, ?_⟩
    intro t ht u hu
    rcases List.mem_append.1 (tokens_append f g ▸ ht) with ht | ht
    · exact h t ht u (List.mem_append_right _ hu)
    · exact hlast t ht u hu

namespace Spans

theorem empty : Spans tags ls empty := ⟨trivial, trivial, fun _ ht => (List.not_mem_nil ht).elim⟩

/-- A leaf in front that leaves nothing in the trees. -/
theorem cons (h : Spans tags ls f) (l : Leaf) : Spans tags (l :: ls) f := by
  refine ⟨h.conforms, h.ordered, fun t ht => ?_⟩
  obtain ⟨u, hu⟩ := h.tokens t ht
  exact ⟨u, List.mem_cons_of_mem l hu⟩

/-- A leaf behind that leaves nothing in the trees. -/
theorem concat (h : Spans tags ls f) (l : Leaf) : Spans tags (ls ++ [l]) f := by
  refine ⟨h.conforms, h.ordered, fun t ht => ?_⟩
  obtain ⟨u, hu⟩ := h.tokens t ht
  exact ⟨u, List.mem_append_left [l] hu⟩

/-- Trees made from leaves in front of others stand in front of the trees made from these. -/
theorem append (hf : Spans tags ls f) (hg : Spans tags ls' g) (hls : LeavesIn tags (ls ++ ls')) :
    Spans tags (ls ++ ls') (f ++ g) := by
  refine ⟨hf.conforms.append hg.conforms, hf.ordered.append hg.ordered fun t ht u hu => ?_, fun t ht => ?_⟩
  · obtain ⟨x, hx⟩ := hf.tokens t ht
    obtain ⟨y, hy⟩ := hg.tokens u hu
    exact (List.pairwise_append.1 hls.sorted).2.2 _ hx _ hy
  · rw [tokens_append, List.mem_append] at ht
    rcases ht with ht | ht
    · obtain ⟨x, hx⟩ := hf.tokens t ht
      exact ⟨x, List.mem_append_left _ hx⟩
    · obtain ⟨x, hx⟩ := hg.tokens t ht
      exact ⟨x, List.mem_append_right _ hx⟩

/-- A node without a token. -/
theorem bare (tag : NodeTag) (h : Spans tags ls f) (htag : tag.hasToken = false)
    (hadmits : tag.Admits tags none f.tags) : Spans tags ls (tree tag none f) := by
  refine ⟨⟨trivial, h.conforms, ?_, hadmits⟩, ⟨trivial, h.ordered, fun _ ht => (List.not_mem_nil ht).elim⟩, h.tokens⟩
  rw [NodeTag.Suits, htag]
  rfl

/-- A node with a token. -/
theorem marked (tag : NodeTag) (h : Spans tags ls f) (hls : LeavesIn tags ls) {u : Tag} {t : TokenId}
    (ht : (u, t) ∈ ls) (htag : tag.hasToken) (hu : tag.Takes u) (hadmits : tag.Admits tags (some t) f.tags) :
    Spans tags ls (tree tag (some t) f) := by
  refine ⟨⟨trivial, h.conforms, ?_, hadmits⟩, ⟨trivial, h.ordered, fun _ ht => (List.not_mem_nil ht).elim⟩, ?_⟩
  · rw [NodeTag.Suits, if_pos htag]
    exact ⟨t, u, rfl, hls.tag _ ht, hu⟩
  · intro t' ht'
    rcases List.mem_cons.1 ht' with rfl | ht'
    · exact ⟨u, ht⟩
    · exact h.tokens t' ht'

end Spans

end Forest

open Forest

/-! ### The tags of the trees -/

theorem forall_mem_append_singleton {α : Type} {P : α → Prop} {xs : List α} {x : α} (hxs : ∀ y ∈ xs, P y)
    (hx : P x) : xs ++ [x] ≠ [] ∧ ∀ y ∈ xs ++ [x], P y :=
  ⟨by simp, forall_mem_concat hxs hx⟩

theorem Expr.tags_operand (e : ParsedExpr .operand) : ∃ k, e.forest.tags = [k] ∧ k.isOperand := by
  cases e with
  | var v => exact ⟨_, rfl, rfl⟩
  | number n => exact ⟨_, rfl, rfl⟩
  | group e => exact ⟨_, rfl, rfl⟩
  | abs mark e => exact ⟨_, rfl, rfl⟩
  | rnd mark e => exact ⟨_, rfl, rfl⟩
  | mod mark e₁ e₂ => exact ⟨_, rfl, rfl⟩

theorem Expr.tags_product : (e : ParsedExpr .product) → e.forest.tags ≠ [] ∧ ∀ k ∈ e.forest.tags, k.isFactor
  | .factor a => ⟨by simp [forest, tree, Forest.tags], List.forall_mem_singleton.2 rfl⟩
  | .scale p o a => by
    rw [forest, tags_append]
    exact forall_mem_append_singleton p.tags_product.2 rfl

theorem Expr.tags_sum : (e : ParsedExpr .sum) → e.forest.tags ≠ [] ∧ ∀ k ∈ e.forest.tags, k.isTerm
  | .signed s p => ⟨by simp [forest, tree, Forest.tags], List.forall_mem_singleton.2 rfl⟩
  | .add e s p => by
    rw [forest, tags_append]
    exact forall_mem_append_singleton e.tags_sum.2 rfl

theorem Item.tags_eq (item : ParsedItem) : ∃ k, item.forest.tags = [k] ∧ k.isItem := by
  cases item with
  | text s => exact ⟨_, rfl, rfl⟩
  | value e => exact ⟨_, rfl, rfl⟩

theorem Stmt.tags_eq (s : ParsedStmt) : ∃ k, s.forest.tags = [k] ∧ k.isStatement := by
  cases s with
  | print mark item more => exact ⟨_, rfl, rfl⟩
  | input mark v more => exact ⟨_, rfl, rfl⟩
  | assign v e => exact ⟨_, rfl, rfl⟩
  | branch mark e₁ r relation e₂ body => exact ⟨_, rfl, rfl⟩
  | goto mark e => exact ⟨_, rfl, rfl⟩
  | gosub mark e => exact ⟨_, rfl, rfl⟩
  | action mark a => exact ⟨_, rfl, rfl⟩

theorem Line.tags_eq (line : ParsedLine) : ∃ k, line.forest.tags = [k] ∧ k.isLine := by
  obtain ⟨number, body⟩ := line
  cases number with
  | none => exact ⟨_, rfl, rfl⟩
  | some n => exact ⟨_, rfl, rfl⟩

/-- The trees of the members of a list have one root each. -/
theorem Forest.forall_tags_ofList {α : Type} {forest : α → Forest} {P : NodeTag → Prop}
    (h : ∀ x, ∃ k, (forest x).tags = [k] ∧ P k) (xs : List α) : ∀ k ∈ (ofList forest xs).tags, P k := by
  induction xs with
  | nil => exact fun _ hk => (List.not_mem_nil hk).elim
  | cons x xs ih =>
    obtain ⟨k, hk, hP⟩ := h x
    rw [ofList, tags_append, hk]
    exact List.forall_mem_cons.2 ⟨hP, ih⟩

theorem Forest.tags_ofList_ne_nil {α : Type} {forest : α → Forest} {P : NodeTag → Prop}
    (h : ∀ x, ∃ k, (forest x).tags = [k] ∧ P k) (x : α) (xs : List α) : (ofList forest (x :: xs)).tags ≠ [] := by
  obtain ⟨k, hk, -⟩ := h x
  rw [ofList, tags_append, hk]
  simp

/-! ### The forests of what leaves spell -/

variable {tags : List Tag} {ls : List Leaf}

theorem Expr.whole_spans {e : ParsedExpr .sum} (h : Spans tags ls e.forest) : Spans tags ls e.wholeForest :=
  h.bare _ rfl e.tags_sum

/-- The tree of a call whose arguments stand somewhere behind the name of the function. -/
theorem Forest.Spans.call {f : Builtin} {mark : TokenId} {g : Forest} (h : Spans tags ls g)
    (hls : LeavesIn tags ls) (hmark : (.builtin f, mark) ∈ ls)
    (hg : g.tags = List.replicate f.arity .expression) : Spans tags ls (tree .call (some mark) g) :=
  h.marked _ hls hmark rfl ⟨f, rfl⟩ ⟨mark, f, rfl, hls.tag _ hmark, hg⟩

theorem Expr.SpelledBy.spans {l : Level} {e : ParsedExpr l} (h : e.SpelledBy ls) (hls : LeavesIn tags ls) :
    Spans tags ls e.forest := by
  induction h with
  | var v => exact Spans.empty.marked _ hls (List.mem_singleton_self _) rfl rfl rfl
  | number n => exact Spans.empty.marked _ hls (List.mem_singleton_self _) rfl rfl rfl
  | group i j _ ih => exact (whole_spans (ih hls.left.tail)).cons _ |>.concat _
  | abs mark i j _ ih =>
    have harguments := ((whole_spans (ih hls.left.tail.tail)).cons (.lparen, i)).cons (.builtin .abs, mark)
    exact (harguments.concat (.rparen, j)).call (f := .abs) hls (by simp) rfl
  | rnd mark i j _ ih =>
    have harguments := ((whole_spans (ih hls.left.tail.tail)).cons (.lparen, i)).cons (.builtin .rnd, mark)
    exact (harguments.concat (.rparen, j)).call (f := .rnd) hls (by simp) rfl
  | mod mark i j k _ _ ih₁ ih₂ =>
    have hfirst := ((whole_spans (ih₁ hls.left.left.tail.tail)).cons (.lparen, i)).cons (.builtin .mod, mark)
    have hsecond := (whole_spans (ih₂ hls.left.right.tail)).cons (.comma, j)
    exact ((hfirst.append hsecond hls.left).concat (.rparen, k)).call (f := .mod) hls (by simp) rfl
  | @factor a ls _ ih => exact (ih hls).bare _ rfl a.tags_operand
  | @scale p a ls ls' o i _ _ ihp iha =>
    exact (ihp hls.left).append (((iha hls.right.tail).bare (.factor o) rfl a.tags_operand).cons _) hls
  | @unsigned p ls _ ih => exact (ih hls).bare _ rfl p.tags_product
  | @signed p ls s i _ ih => exact ((ih hls.tail).bare (.term s) rfl p.tags_product).cons _
  | @add e p ls ls' s i _ _ ihe ihp =>
    exact (ihe hls.left).append (((ihp hls.right.tail).bare (.term s) rfl p.tags_product).cons _) hls

theorem Item.SpelledBy.spans {item : ParsedItem} (h : item.SpelledBy ls) (hls : LeavesIn tags ls) :
    Spans tags ls item.forest := by
  cases h with
  | text s => exact Spans.empty.marked _ hls (List.mem_singleton_self _) rfl rfl rfl
  | value he => exact Expr.whole_spans (he.spans hls)

/-- The members of a list make the trees of a list. -/
theorem ListSpelledBy.spans {α : Type} {spelled : α → List Leaf → Prop} {forest : α → Forest}
    {xs : List α} (hxs : ListSpelledBy spelled xs ls) (hls : LeavesIn tags ls)
    (h : ∀ x ls, spelled x ls → LeavesIn tags ls → Spans tags ls (forest x)) :
    Spans tags ls (ofList forest xs) := by
  induction hxs with
  | nil => exact Spans.empty
  | cons hx _ ih => exact (h _ _ hx hls.left).append (ih hls.right) hls

theorem Behind.spans {α : Type} {t : Tag} {spelled : α → List Leaf → Prop} {forest : α → Forest}
    {x : α} {ls : List Leaf} (hx : Behind t spelled x ls) (hls : LeavesIn tags ls)
    (h : ∀ x ls, spelled x ls → LeavesIn tags ls → Spans tags ls (forest x)) : Spans tags ls (forest x) := by
  obtain ⟨i, ls', rfl, hx⟩ := hx
  exact (h _ _ hx hls.tail).cons _

theorem VariableSpelledBy.spans {v : TokenId} {ls : List Leaf} (h : VariableSpelledBy v ls)
    (hls : LeavesIn tags ls) : Spans tags ls (tree .var (some v) .empty) := by
  obtain rfl := h
  exact Spans.empty.marked _ hls (List.mem_singleton_self _) rfl rfl rfl

theorem Stmt.SpelledBy.spans {s : ParsedStmt} (h : s.SpelledBy ls) (hls : LeavesIn tags ls) :
    Spans tags ls s.forest := by
  induction h with
  | @print item more ls ls' mark hitem hmore =>
    have hitems := ((hitem.spans hls.left.tail).cons (.keyword .print, mark)).append
      (hmore.spans hls.right fun _ _ h hls => h.spans hls fun _ _ => Item.SpelledBy.spans) hls
    exact hitems.marked _ hls (by simp) rfl rfl
      ⟨tags_ofList_ne_nil Item.tags_eq item more, forall_tags_ofList Item.tags_eq (item :: more)⟩
  | @input v more ls ls' mark hv hmore =>
    have hone : ∀ v : TokenId, ∃ k, (tree .var (some v) .empty).tags = [k] ∧ k = .var := fun _ => ⟨_, rfl, rfl⟩
    have hvariables := ((hv.spans hls.left.tail).cons (.keyword .input, mark)).append
      (hmore.spans hls.right fun _ _ h hls => h.spans hls fun _ _ => VariableSpelledBy.spans) hls
    exact hvariables.marked _ hls (by simp) rfl rfl
      ⟨tags_ofList_ne_nil hone v more, forall_tags_ofList hone (v :: more)⟩
  | @assign v e ls i j he =>
    have hvalue := (((Expr.whole_spans (he.spans hls.tail.tail.tail)).cons (.comparison .eq, j)).cons (.var, v)).cons
      (.keyword .let, i)
    exact hvalue.marked _ (u := .var) hls (by simp) rfl rfl rfl
  | @branch e₁ e₂ body ls₁ ls₂ ls mark r relation i he₁ he₂ _ ih =>
    have hfirst := (Expr.whole_spans (he₁.spans hls.left.left.tail)).cons (.keyword .if, mark)
    have hsecond := (Expr.whole_spans (he₂.spans hls.left.right.tail)).cons (.comparison r, relation)
    have hcondition := (hfirst.append hsecond hls.left).marked .predicate (u := .comparison r) (t := relation)
      hls.left (by simp) rfl ⟨r, rfl⟩ rfl
    have hbody := (ih hls.right.tail).cons (.keyword .then, i)
    obtain ⟨k, hk, hstatement⟩ := body.tags_eq
    refine (hcondition.append hbody hls).marked _ hls (by simp) rfl rfl ⟨k, ?_, hstatement⟩
    rw [tags_append, hk]
    rfl
  | goto mark he => exact ((Expr.whole_spans (he.spans hls.tail)).cons _).marked _ hls (by simp) rfl rfl rfl
  | gosub mark he => exact ((Expr.whole_spans (he.spans hls.tail)).cons _).marked _ hls (by simp) rfl rfl rfl
  | action mark a => exact Spans.empty.marked _ hls (List.mem_singleton_self _) rfl rfl rfl

theorem Grammar.LineSpelledBy.spans {line? : Option ParsedLine} (h : LineSpelledBy line? ls)
    (hls : LeavesIn tags ls) : Spans tags ls (Grammar.forest line?.toList) := by
  cases h with
  | empty => exact Spans.empty
  | number n => exact Spans.empty
  | @naked s ls hs =>
    have hline := (hs.spans hls).bare .nakedLine rfl s.tags_eq
    simpa [Grammar.forest, ofList, Line.forest] using hline
  | @marked s ls n hs =>
    have hline := ((hs.spans hls.tail).cons (.number, n)).marked .markedLine (t := n) hls (by simp) rfl rfl
      s.tags_eq
    simpa [Grammar.forest, ofList, Line.forest] using hline

theorem Forest.ofList_append {α : Type} (forest : α → Forest) (xs ys : List α) :
    ofList forest (xs ++ ys) = ofList forest xs ++ ofList forest ys := by
  induction xs with
  | nil => rw [List.nil_append, ofList, empty_append]
  | cons x xs ih => rw [List.cons_append, ofList, ofList, ih, Forest.append_assoc]

theorem Grammar.SpelledBy.spans {lines : List ParsedLine} (h : SpelledBy lines ls) (hls : LeavesIn tags ls) :
    Spans tags ls (Grammar.forest lines) := by
  induction h with
  | nil => exact Spans.empty
  | last hline => exact hline.spans hls
  | @line line? lines ls ls' i hline _ ih =>
    rw [Grammar.forest, ofList_append]
    exact (hline.spans hls.left).append ((ih hls.right.tail).cons _) hls

end LineBasic

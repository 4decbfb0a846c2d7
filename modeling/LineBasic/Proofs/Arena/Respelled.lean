import LineBasic.Proofs.Arena.Tidied

/-!
# Reading tags off an arena and parsing them again

The tags that are read off the arena of a program spell the same tree again. Only the positions of its tokens are
others.

## Main definitions

* `Forest.Renumbered`, `Node.Renumbered`, `Arena.Renumbered`: forests, nodes and arenas that differ in their tokens
  only.
* `Numbered`: leaves have the tags of marks, and stand where the tokens of the marks go.
* `TokenAt`: where the token of a mark goes.

## Main results

* `Forest.Renumbered.nodes`, `Arena.Renumbered.ofLines`: the nodes and the arena of a renumbered forest.
* `Expr.exists_respelled`, `Stmt.exists_respelled`, `Grammar.exists_respelled`: the marks of a tree spell a tree that
  differs in its tokens only.
* `Grammar.parse_flatten`: what is read off the arena of a program, and what it is parsed to.
-/

namespace LineBasic

open Forest

variable {R : TokenId → TokenId → Prop}

/-! ### Renumbered forests -/

/-- Forests that differ in their tokens only: where one has a token, the other one has a related token. -/
inductive Forest.Renumbered (R : TokenId → TokenId → Prop) : Forest → Forest → Prop
  | empty : Renumbered R empty empty
  | grow {f f' ks ks' : Forest} {token token' : Option TokenId} (tag : NodeTag) (hf : Renumbered R f f')
      (htoken : Option.Rel R token token') (hks : Renumbered R ks ks') :
      Renumbered R (grow f tag token ks) (grow f' tag token' ks')

/-- Nodes that differ in their tokens only. -/
structure Node.Renumbered (R : TokenId → TokenId → Prop) (n n' : Node) : Prop where
  tag : n.tag = n'.tag
  token : Option.Rel R n.token n'.token
  lhs : n.lhs = n'.lhs
  rhs : n.rhs = n'.rhs

/-- Arenas that differ in the tokens of their nodes only. -/
structure Arena.Renumbered (R : TokenId → TokenId → Prop) (a a' : Arena) : Prop where
  nodes : List.Forall₂ (Node.Renumbered R) a.nodes.toList a'.nodes.toList
  extra : a.extra = a'.extra

theorem NodeTag.renumbered_node {token token' : Option TokenId} (tag : NodeTag) (htoken : Option.Rel R token token')
    (start : Nat) (children : List NodeId) :
    (tag.node token start children).Renumbered R (tag.node token' start children) := by
  rw [node, node]
  split
  · exact ⟨rfl, htoken, rfl, rfl⟩
  · split <;> exact ⟨rfl, htoken, rfl, rfl⟩

namespace Forest.Renumbered

variable {f f' g g' ks ks' : Forest} {tag : NodeTag}

theorem append (hf : Renumbered R f f') (hg : Renumbered R g g') : Renumbered R (f ++ g) (f' ++ g') := by
  induction hg with
  | empty => exact hf
  | grow tag _ htoken hks ih _ => exact ih.grow tag htoken hks

theorem tree (tag : NodeTag) (hks : Renumbered R ks ks') :
    Renumbered R (tree tag none ks) (Forest.tree tag none ks') :=
  empty.grow tag .none hks

theorem tokenTree {i j : TokenId} (tag : NodeTag) (hij : R i j) (hks : Renumbered R ks ks') :
    Renumbered R (Forest.tree tag (some i) ks) (Forest.tree tag (some j) ks') :=
  empty.grow tag (.some hij) hks

theorem size_eq (h : Renumbered R f f') : f.size = f'.size := by
  induction h with
  | empty => rfl
  | grow _ _ _ _ ihf ihks => rw [size, size, ihf, ihks]

theorem count_eq (h : Renumbered R f f') : f.count = f'.count := by
  induction h with
  | empty => rfl
  | grow _ _ _ _ ihf _ => rw [count, count, ihf]

theorem slots_eq (h : Renumbered R f f') : f.slots = f'.slots := by
  induction h with
  | empty => rfl
  | grow _ _ _ hks ihf ihks => rw [slots, slots, ihf, ihks, hks.count_eq]

theorem roots_eq (h : Renumbered R f f') (start : Nat) : f.roots start = f'.roots start := by
  induction h with
  | empty => rfl
  | grow _ hf _ hks ihf _ => rw [roots, roots, ihf, hf.size_eq, hks.size_eq]

theorem extra_eq (h : Renumbered R f f') (start : Nat) : f.extra start = f'.extra start := by
  induction h generalizing start with
  | empty => rfl
  | grow _ hf _ hks ihf ihks => rw [extra, extra, ihf, ihks, hf.size_eq, hks.roots_eq]

/-- The nodes of a renumbered forest are renumbered one by one. -/
theorem nodes (h : Renumbered R f f') (start offset : Nat) :
    List.Forall₂ (Node.Renumbered R) (f.nodes start offset) (f'.nodes start offset) := by
  induction h generalizing start offset with
  | empty => exact .nil
  | grow tag hf htoken hks ihf ihks =>
    rw [Forest.nodes, Forest.nodes, hf.size_eq, hf.slots_eq, hks.slots_eq, hks.roots_eq]
    exact List.rel_append (List.rel_append (ihf _ _) (ihks _ _)) (.cons (tag.renumbered_node htoken _ _) .nil)

end Forest.Renumbered

/-- Lines whose trees differ in their tokens only have arenas of that kind. -/
theorem Arena.Renumbered.ofLines {lines lines' : List ParsedLine}
    (h : Forest.Renumbered R (Grammar.forest lines) (Grammar.forest lines')) :
    Arena.Renumbered R (Arena.ofLines lines) (Arena.ofLines lines') := by
  obtain ⟨hnodes, hextra⟩ := Arena.ofLines_eq_forest lines
  obtain ⟨hnodes', hextra'⟩ := Arena.ofLines_eq_forest lines'
  refine ⟨?_, Array.toList_inj.1 ?_⟩
  · rw [hnodes, hnodes', h.slots_eq, h.roots_eq]
    exact .cons (NodeTag.root.renumbered_node .none _ _) (h.nodes 1 0)
  · rw [hextra, hextra', h.extra_eq, h.roots_eq]

/-! ### What marks spell -/

/-- The leaves have the tags of the marks, and a mark with a token goes to the position of its leaf. -/
def Numbered (R : TokenId → TokenId → Prop) (ls : List Leaf) (ms : List Mark) : Prop :=
  List.Forall₂ (fun l m => l.1 = m.1 ∧ ∀ i ∈ m.2, R i l.2) ls ms

section Respelled

variable {ls : List Leaf} {ms ms' : List Mark} {t : Tag}

@[simp] theorem numbered_nil : Numbered R ls [] ↔ ls = [] := List.forall₂_nil_right_iff

@[simp] theorem numbered_none : Numbered R ls ((t, none) :: ms) ↔
    ∃ k ls', Numbered R ls' ms ∧ ls = (t, k) :: ls' := by
  rw [Numbered, List.forall₂_cons_right_iff]
  constructor
  · rintro ⟨⟨t, k⟩, ls', ⟨rfl, -⟩, hls, rfl⟩
    exact ⟨k, ls', hls, rfl⟩
  · rintro ⟨k, ls', hls, rfl⟩
    exact ⟨(t, k), ls', ⟨rfl, nofun⟩, hls, rfl⟩

@[simp] theorem numbered_some {i : TokenId} : Numbered R ls ((t, some i) :: ms) ↔
    ∃ k, R i k ∧ ∃ ls', Numbered R ls' ms ∧ ls = (t, k) :: ls' := by
  rw [Numbered, List.forall₂_cons_right_iff]
  constructor
  · rintro ⟨⟨t, k⟩, ls', ⟨rfl, hk⟩, hls, rfl⟩
    exact ⟨k, hk i rfl, ls', hls, rfl⟩
  · rintro ⟨k, hk, ls', hls, rfl⟩
    refine ⟨(t, k), ls', ⟨rfl, fun j hj => ?_⟩, hls, rfl⟩
    rwa [← Option.some.inj hj]

@[simp] theorem numbered_append : Numbered R ls (ms ++ ms') ↔
    ∃ ls₁, Numbered R ls₁ ms ∧ ∃ ls₂, Numbered R ls₂ ms' ∧ ls = ls₁ ++ ls₂ :=
  forall₂_append_right_iff

/-- The marks of an expression spell it again, with other tokens. -/
theorem Expr.exists_respelled {l : Level} {e : ParsedExpr l} (h : Numbered R ls e.marks) :
    ∃ e' : ParsedExpr l, e'.SpelledBy ls ∧ e.forest.Renumbered R e'.forest ∧ e'.nesting = e.nesting := by
  induction e generalizing ls with
  | var v =>
    simp only [marks, numbered_some, numbered_nil] at h
    obtain ⟨k, hk, _, rfl, rfl⟩ := h
    exact ⟨_, .var k, .tokenTree .var hk .empty, rfl⟩
  | number n =>
    simp only [marks, numbered_some, numbered_nil] at h
    obtain ⟨k, hk, _, rfl, rfl⟩ := h
    exact ⟨_, .number k, .tokenTree .number hk .empty, rfl⟩
  | group e ih =>
    simp only [marks, List.cons_append, numbered_none, numbered_append, numbered_nil] at h
    obtain ⟨i, _, ⟨ls, he, _, ⟨j, _, rfl, rfl⟩, rfl⟩, rfl⟩ := h
    obtain ⟨e', he', htree, hnesting⟩ := ih he
    exact ⟨_, .group i j he', .tree .expression htree, hnesting⟩
  | abs mark e ih =>
    simp only [marks, List.cons_append, numbered_some, numbered_none, numbered_append, numbered_nil] at h
    obtain ⟨k, hk, _, ⟨i, _, ⟨ls, he, _, ⟨j, _, rfl, rfl⟩, rfl⟩, rfl⟩, rfl⟩ := h
    obtain ⟨e', he', htree, hnesting⟩ := ih he
    exact ⟨_, .abs k i j he', .tokenTree .call hk (.tree .expression htree), hnesting⟩
  | rnd mark e ih =>
    simp only [marks, List.cons_append, numbered_some, numbered_none, numbered_append, numbered_nil] at h
    obtain ⟨k, hk, _, ⟨i, _, ⟨ls, he, _, ⟨j, _, rfl, rfl⟩, rfl⟩, rfl⟩, rfl⟩ := h
    obtain ⟨e', he', htree, hnesting⟩ := ih he
    exact ⟨_, .rnd k i j he', .tokenTree .call hk (.tree .expression htree), hnesting⟩
  | mod mark e₁ e₂ ih₁ ih₂ =>
    simp only [marks, List.cons_append, numbered_some, numbered_none, numbered_append, numbered_nil] at h
    obtain ⟨m, hm, _, ⟨i, _, ⟨_, ⟨ls₁, he₁, _, ⟨j, ls₂, he₂, rfl⟩, rfl⟩, _, ⟨k, _, rfl, rfl⟩, rfl⟩, rfl⟩, rfl⟩ := h
    obtain ⟨e₁', he₁', htree₁, hnesting₁⟩ := ih₁ he₁
    obtain ⟨e₂', he₂', htree₂, hnesting₂⟩ := ih₂ he₂
    exact ⟨_, .mod m i j k he₁' he₂',
      .tokenTree .call hm (.append (.tree .expression htree₁) (.tree .expression htree₂)),
      congrArg₂ max hnesting₁ hnesting₂⟩
  | factor a ih =>
    obtain ⟨a', ha', htree, hnesting⟩ := ih h
    exact ⟨_, .factor ha', .tree (.factor .times) htree, hnesting⟩
  | scale p o a ihp iha =>
    simp only [marks, numbered_none, numbered_append] at h
    obtain ⟨ls, hp, _, ⟨i, ls', ha, rfl⟩, rfl⟩ := h
    obtain ⟨p', hp', htreep, hnestingp⟩ := ihp hp
    obtain ⟨a', ha', htreea, hnestinga⟩ := iha ha
    exact ⟨_, .scale o i hp' ha', .append htreep (.tree (.factor o) htreea), congrArg₂ max hnestingp hnestinga⟩
  | signed s p ih =>
    cases s with
    | plus =>
      -- A plus has no mark, so the first term is spelled without a sign.
      obtain ⟨p', hp', htree, hnesting⟩ := ih h
      exact ⟨_, .unsigned hp', .tree (.term .plus) htree, congrArg (· + 1) hnesting⟩
    | minus =>
      simp only [marks, numbered_none] at h
      obtain ⟨i, ls, hp, rfl⟩ := h
      obtain ⟨p', hp', htree, hnesting⟩ := ih hp
      exact ⟨_, .signed .minus i hp', .tree (.term .minus) htree, congrArg (· + 1) hnesting⟩
  | add e s p ihe ihp =>
    simp only [marks, numbered_none, numbered_append] at h
    obtain ⟨ls, he, _, ⟨i, ls', hp, rfl⟩, rfl⟩ := h
    obtain ⟨e', he', htreee, hnestinge⟩ := ihe he
    obtain ⟨p', hp', htreep, hnestingp⟩ := ihp hp
    exact ⟨_, .add s i he' hp', .append htreee (.tree (.term s) htreep),
      congrArg₂ max hnestinge (congrArg (· + 1) hnestingp)⟩

theorem Item.exists_respelled {item : ParsedItem} (h : Numbered R ls item.marks) :
    ∃ item' : ParsedItem, item'.SpelledBy ls ∧ item.forest.Renumbered R item'.forest ∧
      item'.nesting = item.nesting := by
  cases item with
  | text s =>
    simp only [marks, numbered_some, numbered_nil] at h
    obtain ⟨k, hk, _, rfl, rfl⟩ := h
    exact ⟨_, .text k, .tokenTree .string hk .empty, rfl⟩
  | value e =>
    obtain ⟨e', he', htree, hnesting⟩ := Expr.exists_respelled h
    exact ⟨_, .value he', .tree .expression htree, hnesting⟩

theorem exists_variable_respelled {v : TokenId} (h : Numbered R ls (variableMarks v)) :
    ∃ k, VariableSpelledBy k ls ∧ R v k := by
  simp only [variableMarks, numbered_some, numbered_nil] at h
  obtain ⟨k, hk, _, rfl, rfl⟩ := h
  exact ⟨k, rfl, hk⟩

/-- If the marks of each member spell one that resembles it, then the marks of a list spell one with such members. -/
theorem exists_list_respelled {α : Type} {marks : α → List Mark} {spelled : α → List Leaf → Prop}
    {resembles : α → α → Prop} (hspelled : ∀ x ls, Numbered R ls (marks x) → ∃ x', spelled x' ls ∧ resembles x x')
    {xs : List α} (h : Numbered R ls (marksBehindCommas marks xs)) :
    ∃ xs', ListSpelledBy (Behind .comma spelled) xs' ls ∧ List.Forall₂ resembles xs xs' := by
  induction xs generalizing ls with
  | nil =>
    obtain rfl := numbered_nil.1 h
    exact ⟨[], .nil, .nil⟩
  | cons x xs ih =>
    rw [marksBehindCommas, List.flatMap_cons, List.cons_append] at h
    simp only [numbered_none, numbered_append] at h
    obtain ⟨i, _, ⟨ls, hx, ls', hxs, rfl⟩, rfl⟩ := h
    obtain ⟨x', hx', hresembles⟩ := hspelled x ls hx
    obtain ⟨xs', hxs', hall⟩ := ih hxs
    exact ⟨x' :: xs', .cons ⟨i, ls, rfl, hx'⟩ hxs', .cons hresembles hall⟩

theorem Forest.Renumbered.ofList {α : Type} (forest : α → Forest) {xs xs' : List α}
    (h : List.Forall₂ (fun x x' => (forest x).Renumbered R (forest x')) xs xs') :
    (ofList forest xs).Renumbered R (ofList forest xs') := by
  induction h with
  | nil => exact .empty
  | cons hx _ ih => exact .append hx ih

/-- The marks of a statement spell it again, with other tokens. -/
theorem Stmt.exists_respelled {s : ParsedStmt} (h : Numbered R ls s.marks) :
    ∃ s' : ParsedStmt, s'.SpelledBy ls ∧ s.forest.Renumbered R s'.forest ∧ s'.nesting = s.nesting := by
  induction s generalizing ls with
  | print mark item more =>
    simp only [marks, List.cons_append, numbered_some, numbered_append] at h
    obtain ⟨k, hk, _, ⟨ls, hitem, ls', hmore, rfl⟩, rfl⟩ := h
    obtain ⟨item', hitem', htree, hnesting⟩ := Item.exists_respelled hitem
    obtain ⟨more', hmore', hall⟩ := exists_list_respelled (fun _ _ => Item.exists_respelled) hmore
    have htrees := Forest.Renumbered.ofList Item.forest (.cons htree (hall.imp fun _ _ hmember => hmember.1))
    have hnestings := map_eq_of_forall₂ (f := Item.nesting) (g := Item.nesting) hall fun _ _ hmember => hmember.2
    refine ⟨_, .print k hitem' hmore', .tokenTree .print hk htrees, ?_⟩
    rw [nesting, nesting, List.map_cons, List.map_cons, hnesting, hnestings]
  | input mark v more =>
    simp only [marks, List.cons_append, numbered_some, numbered_append] at h
    obtain ⟨k, hk, _, ⟨ls, hv, ls', hmore, rfl⟩, rfl⟩ := h
    obtain ⟨v', hv', hrelated⟩ := exists_variable_respelled hv
    obtain ⟨more', hmore', hall⟩ := exists_list_respelled (fun _ _ => exists_variable_respelled) hmore
    have htrees := Forest.Renumbered.ofList (fun v => tree .var (some v) empty)
      (.cons (.tokenTree .var hrelated .empty) (hall.imp fun _ _ hvariable => .tokenTree .var hvariable .empty))
    exact ⟨_, .input k hv' hmore', .tokenTree .input hk htrees, rfl⟩
  | assign v e =>
    simp only [marks, numbered_some, numbered_none] at h
    obtain ⟨i, _, ⟨k, hk, _, ⟨j, ls, he, rfl⟩, rfl⟩, rfl⟩ := h
    obtain ⟨e', he', htree, hnesting⟩ := Expr.exists_respelled he
    exact ⟨_, .assign i j he', .tokenTree .assign hk (.tree .expression htree), hnesting⟩
  | branch mark e₁ r relation e₂ body ih =>
    simp only [marks, List.cons_append, numbered_some, numbered_none, numbered_append] at h
    obtain ⟨m, hm, _, ⟨_, ⟨ls₁, he₁, _, ⟨k, hk, ls₂, he₂, rfl⟩, rfl⟩, _, ⟨i, ls, hbody, rfl⟩, rfl⟩, rfl⟩ := h
    obtain ⟨e₁', he₁', htree₁, hnesting₁⟩ := Expr.exists_respelled he₁
    obtain ⟨e₂', he₂', htree₂, hnesting₂⟩ := Expr.exists_respelled he₂
    obtain ⟨body', hbody', htree, hnesting⟩ := ih hbody
    have hcondition := Forest.Renumbered.tokenTree .predicate hk
      (.append (.tree .expression htree₁) (.tree .expression htree₂))
    refine ⟨_, .branch m r k i he₁' he₂' hbody', .tokenTree .branch hm (.append hcondition htree), ?_⟩
    rw [nesting, nesting, hnesting₁, hnesting₂, hnesting]
  | goto mark e =>
    simp only [marks, numbered_some] at h
    obtain ⟨k, hk, ls, he, rfl⟩ := h
    obtain ⟨e', he', htree, hnesting⟩ := Expr.exists_respelled he
    exact ⟨_, .goto k he', .tokenTree .goto hk (.tree .expression htree), hnesting⟩
  | gosub mark e =>
    simp only [marks, numbered_some] at h
    obtain ⟨k, hk, ls, he, rfl⟩ := h
    obtain ⟨e', he', htree, hnesting⟩ := Expr.exists_respelled he
    exact ⟨_, .gosub k he', .tokenTree .gosub hk (.tree .expression htree), hnesting⟩
  | action mark a =>
    simp only [marks, numbered_some, numbered_nil] at h
    obtain ⟨k, hk, _, rfl, rfl⟩ := h
    exact ⟨_, .action k a, .tokenTree (.action a) hk .empty, rfl⟩

/-- The marks of a line in front of its end spell it again, with other tokens. -/
theorem Line.exists_respelled {line : ParsedLine} (h : Numbered R ls line.marks) :
    ∃ (line' : ParsedLine) (ls' : List Leaf) (i : TokenId), ls = ls' ++ [(.eol, i)] ∧
      Grammar.LineSpelledBy (some line') ls' ∧ line.forest.Renumbered R line'.forest ∧
      line'.body.nesting = line.body.nesting := by
  obtain ⟨number, body⟩ := line
  cases number with
  | none =>
    simp only [marks, numbered_append, numbered_none, numbered_nil] at h
    obtain ⟨ls, hbody, _, ⟨i, _, rfl, rfl⟩, rfl⟩ := h
    obtain ⟨body', hbody', htree, hnesting⟩ := Stmt.exists_respelled hbody
    exact ⟨⟨none, body'⟩, ls, i, rfl, .naked hbody', .tree .nakedLine htree, hnesting⟩
  | some n =>
    simp only [marks, List.cons_append, numbered_some, numbered_append, numbered_none, numbered_nil] at h
    obtain ⟨k, hk, _, ⟨ls, hbody, _, ⟨i, _, rfl, rfl⟩, rfl⟩, rfl⟩ := h
    obtain ⟨body', hbody', htree, hnesting⟩ := Stmt.exists_respelled hbody
    exact ⟨⟨some k, body'⟩, (.number, k) :: ls, i, rfl, .marked k hbody', .tokenTree .markedLine hk htree, hnesting⟩

/-- The marks of a program spell it again, with other tokens. -/
theorem Grammar.exists_respelled {lines : List ParsedLine} (h : Numbered R ls (Grammar.marks lines)) :
    ∃ lines', Grammar.SpelledBy lines' ls ∧
      List.Forall₂ (fun line line' : ParsedLine =>
        line.forest.Renumbered R line'.forest ∧ line'.body.nesting = line.body.nesting) lines lines' := by
  induction lines generalizing ls with
  | nil =>
    obtain rfl := numbered_nil.1 h
    exact ⟨[], .nil, .nil⟩
  | cons line lines ih =>
    rw [Grammar.marks, List.flatMap_cons, numbered_append] at h
    obtain ⟨_, hline, ls', hlines, rfl⟩ := h
    obtain ⟨line', ls, i, rfl, hline', hresembles⟩ := Line.exists_respelled hline
    obtain ⟨lines', hlines', hall⟩ := ih hlines
    refine ⟨line' :: lines', ?_, .cons hresembles hall⟩
    rw [List.append_assoc]
    exact .line i hline' hlines'

end Respelled

/-! ### Parsing again -/

/-- A mark with a certain token stands at a position. -/
def TokenAt (ms : List Mark) (i k : TokenId) : Prop := ∃ t, ms[k]? = some (t, some i)

theorem numbered_leavesOf (ms : List Mark) : Numbered (TokenAt ms) (leavesOf (ms.map Prod.fst)) ms := by
  refine List.forall₂_iff_get.2 ⟨by simp, fun k hk hk' => ?_⟩
  have htoken : ∀ i ∈ (ms.get ⟨k, hk'⟩).2, TokenAt ms i k := fun i hi =>
    ⟨_, (List.getElem?_eq_getElem hk').trans (congrArg some (Prod.ext rfl hi))⟩
  exact ⟨by simp, by simpa using htoken⟩

namespace Grammar

variable {tags : List Tag} {lines : List ParsedLine}

/-- The tags that are read off the arena of lines within the limit on nesting are parsed to the same arena, with the
positions at which they stand now. -/
theorem exists_parse_marks (hlines : ∀ line ∈ lines, line.body.nesting ≤ maxNesting) :
    ∃ lines', parse ((marks lines).map Prod.fst ++ [.eof]) = .ok lines' ∧
      (Arena.ofLines lines).Renumbered (TokenAt (marks lines)) (Arena.ofLines lines') := by
  obtain ⟨lines', hspelled, hall⟩ := exists_respelled (numbered_leavesOf (marks lines))
  have hnestings := map_eq_of_forall₂ (f := fun line : ParsedLine => line.body.nesting)
    (g := fun line : ParsedLine => line.body.nesting) hall fun _ _ hline => hline.2
  have hnesting : ∀ line ∈ lines', line.body.nesting ≤ maxNesting := by
    rwa [← List.forall_mem_map (P := (· ≤ maxNesting)), hnestings, List.forall_mem_map]
  have htrees := Forest.Renumbered.ofList Line.forest (hall.imp fun _ _ hline => hline.1)
  exact ⟨lines', Derives.parse_eq ⟨hspelled, hnesting⟩ [], Arena.Renumbered.ofLines htrees⟩

end Grammar

/-- What is read off the arena of a program. The tags are those in front of the end of the text that a tree keeps. The
tokens of the nodes come out in order, each once and with its own tag. Parsed again, the tags give the same arena up to
its tokens. -/
structure Arena.Keeps (a : Arena) (front : List Tag) (flat : List Mark) : Prop where
  agrees : List.Forall₂ Mark.Agrees flat (tidied (leavesOf front))
  increasing : (tokensOf flat).Pairwise (· < ·)
  perm : (tokensOf flat).Perm (a.nodes.toList.filterMap Node.token)
  tagged : ∀ m ∈ flat, ∀ i ∈ m.2, front[i]? = some m.1
  parsed : ∃ lines', Grammar.parse (flat.map Prod.fst ++ [.eof]) = .ok lines' ∧
    a.Renumbered (TokenAt flat) (Arena.ofLines lines')

/-- The arena of a program that parses keeps all tags in front of the first end of the text but those of lines without
a statement and each plus that opens an expression. -/
theorem Grammar.parse_flatten {tags : List Tag} {lines : List ParsedLine} (h : Grammar.parse tags = .ok lines) :
    ∃ front rest, tags = front ++ .eof :: rest ∧ .eof ∉ front ∧
      (Arena.ofLines lines).Keeps front ((Arena.ofLines lines).flatten tags) := by
  obtain ⟨front, rest, rfl, heof, hspelled, hnesting⟩ := parse_eq_ok_iff.1 h
  refine ⟨front, rest, rfl, heof, ?_⟩
  rw [flatten_ofLines hspelled]
  have hsublist : (marked (marks lines)).Sublist (leavesOf front) := hspelled.sublist_marked
  constructor
  case agrees => exact hspelled.agrees_tidied
  case increasing =>
    rw [← map_snd_marked]
    refine .sublist (hsublist.map Prod.snd) ?_
    rw [List.zipIdx_map_snd]
    exact List.pairwise_lt_range'
  case perm => exact perm_tokens lines
  case tagged =>
    rintro ⟨t, token⟩ hm i rfl
    have hmem : (t, i) ∈ leavesOf front := hsublist.subset (mem_marked hm)
    simpa using List.mk_mem_zipIdx_iff_getElem?.1 hmem
  case parsed => exact exists_parse_marks hnesting

theorem Grammar.parse_flatten_plus :
    ∃ lines front rest,
      Grammar.parse [.number, .eol, .keyword .print, .sign .plus, .var, .comma, .sign .minus, .number, .eof] =
          .ok lines ∧
        [.number, .eol, .keyword .print, .sign .plus, .var, .comma, .sign .minus, .number, .eof] =
          front ++ Tag.eof :: rest ∧
        (Arena.ofLines lines).Keeps front
          [(.keyword .print, some 2), (.var, some 4), (.comma, none), (.sign .minus, none), (.number, some 7),
            (.eol, none)] := by
  let tags : List Tag := [.number, .eol, .keyword .print, .sign .plus, .var, .comma, .sign .minus, .number, .eof]
  let printed : ParsedStmt :=
    .print 2 (.value (.signed .plus (.factor (.var 4)))) [.value (.signed .minus (.factor (.number 7)))]
  have hparse : Grammar.parse tags = .ok [⟨none, printed⟩] := by rfl
  have hflat : (Arena.ofLines [⟨none, printed⟩]).flatten tags =
      [(.keyword .print, some 2), (.var, some 4), (.comma, none), (.sign .minus, none), (.number, some 7),
        (.eol, none)] := by decide +kernel
  obtain ⟨front, rest, htags, -, hkeeps⟩ := Grammar.parse_flatten hparse
  exact ⟨_, front, rest, hparse, htags, hflat ▸ hkeeps⟩

end LineBasic

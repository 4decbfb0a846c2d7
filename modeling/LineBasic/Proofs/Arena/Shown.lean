import LineBasic.Proofs.Arena.Placement

/-!
# Trees in an arena

A plain tree is shown in an arena at a node if the nodes from there on have its shape and lead to the lexemes of
its leaves. The arena of a program shows the plain lines of the program.

## Main definitions

* `Expr.ShownIn`, `Item.ShownIn`, `Stmt.ShownIn`, `Clause.ShownIn`: the parts of a plain tree at their nodes.
* `Arena.Shows`: the root and the lines of a program.

## Main results

* `Expr.ShownIn.mono`, `Stmt.ShownIn.mono`: what is shown stays there when an arena is extended.
* `Expr.WholeIn.holds`, `Stmt.ShownIn.holds`: what is shown is in the arena.
-/

namespace LineBasic

open Arena

section Shown

variable (ws : List Lexeme) (a : Arena)

/-- A node without references that was made from a lexeme. -/
def Arena.Leaf (i : NodeId) (tag : NodeTag) (P : Lexeme → Prop) : Prop :=
  ∃ t, LexemeAt ws t P ∧ a.Has i ⟨tag, some t, none, none⟩

/-- A node for a whole expression whose terms are given. -/
def Arena.Wraps (i : NodeId) (shown : List NodeId → Prop) : Prop :=
  ∃ ks, shown ks ∧ a.Owns i .expression none ks

/-- A node for a call with some arguments. -/
def Arena.Calls (i : NodeId) (f : Builtin) (arguments : List NodeId) : Prop :=
  ∃ t, LexemeAt ws t (·.HasTag (.builtin f)) ∧ a.Owns i .call (some t) arguments

/-- An operand is shown at a node, a product at the nodes of its factors and a sum at those of its terms. -/
def Expr.ShownIn : {l : Level} → PlainExpr l → Placed l → Prop
  | _, .var v, i => a.Leaf ws i .var (·.IsLetter v)
  | _, .number n, i => a.Leaf ws i .number (·.IsNumeral n)
  | _, .group e, i => a.Wraps i e.ShownIn
  | _, .abs _ e, i => ∃ j, a.Wraps j e.ShownIn ∧ a.Calls ws i .abs [j]
  | _, .rnd _ e, i => ∃ j, a.Wraps j e.ShownIn ∧ a.Calls ws i .rnd [j]
  | _, .mod _ e₁ e₂, i =>
    ∃ j₁ j₂, a.Wraps j₁ e₁.ShownIn ∧ a.Wraps j₂ e₂.ShownIn ∧ a.Calls ws i .mod [j₁, j₂]
  | _, .factor b, ks => ∃ j k, b.ShownIn j ∧ a.Has k ⟨.factor .times, none, some j, none⟩ ∧ ks = [k]
  | _, .scale p o b, ks => ∃ ks' j k, p.ShownIn ks' ∧ b.ShownIn j ∧
    a.Has k ⟨.factor o, none, some j, none⟩ ∧ ks = ks' ++ [k]
  | _, .signed s p, ks => ∃ ks' k, p.ShownIn ks' ∧ a.Owns k (.term s) none ks' ∧ ks = [k]
  | _, .add e s p, ks => ∃ ks₁ ks₂ k, e.ShownIn ks₁ ∧ p.ShownIn ks₂ ∧
    a.Owns k (.term s) none ks₂ ∧ ks = ks₁ ++ [k]

/-- A whole expression is shown at a node. -/
def Expr.WholeIn (e : PlainExpr .sum) (i : NodeId) : Prop := a.Wraps i (e.ShownIn ws a)

/-- An item of PRINT is shown at a node. -/
def Item.ShownIn : PlainItem → NodeId → Prop
  | .text s, i => a.Leaf ws i .string (·.IsBody s)
  | .value e, i => e.WholeIn ws a i

/-- A variable of INPUT is shown at a node. -/
def Letter.ShownIn (v : Letter) (i : NodeId) : Prop := a.Leaf ws i .var (·.IsLetter v)

/-- A statement is shown at a node that was made from a token. -/
def Stmt.ShownIn : PlainStmt → TokenId → NodeId → Prop
  | .print _ item more, t, i =>
    ∃ js, List.Forall₂ (Item.ShownIn ws a) (item :: more) js ∧ a.Owns i .print (some t) js
  | .input _ v more, t, i =>
    ∃ js, List.Forall₂ (Letter.ShownIn ws a) (v :: more) js ∧ a.Owns i .input (some t) js
  | .assign v e, t, i =>
    ∃ j, e.WholeIn ws a j ∧ LexemeAt ws t (·.IsLetter v) ∧ a.Has i ⟨.assign, some t, none, some j⟩
  | .branch _ e₁ r _ e₂ body, t, i => ∃ j₁ j₂ tr c tb b, e₁.WholeIn ws a j₁ ∧ e₂.WholeIn ws a j₂ ∧
    LexemeAt ws tr (·.HasTag (.comparison r)) ∧ a.Has c ⟨.predicate, some tr, some j₁, some j₂⟩ ∧
    body.ShownIn tb b ∧ a.Has i ⟨.branch, some t, some c, some b⟩
  | .goto _ e, t, i => ∃ j, e.WholeIn ws a j ∧ a.Has i ⟨.goto, some t, some j, none⟩
  | .gosub _ e, t, i => ∃ j, e.WholeIn ws a j ∧ a.Has i ⟨.gosub, some t, some j, none⟩
  | .action _ k, t, i => a.Has i ⟨.action k, some t, none, none⟩

/-- The node of a line whose statement stands at a node. -/
def Arena.IsLine (i b : NodeId) : Option Numeral → Prop
  | none => a.Has i ⟨.nakedLine, none, some b, none⟩
  | some n => ∃ t, LexemeAt ws t (·.IsNumeral n) ∧ a.Has i ⟨.markedLine, some t, some b, none⟩

/-- A line is shown at a node. -/
def Clause.ShownIn (c : Clause) (i : NodeId) : Prop :=
  ∃ b, c.line.body.ShownIn ws a c.token b ∧ a.IsLine ws i b c.line.number

/-- The lines of a program are shown at the children of the root. -/
structure Arena.Shows (clauses : List Clause) : Prop where
  sound : a.Sound ws
  root : ∃ n, a.nodes[0]? = some n ∧ n.tag = .root ∧ n.token = none ∧ a.Bounded n ∧
    List.Forall₂ (Clause.ShownIn ws a) clauses (a.children n)

end Shown

/-! ### What is shown stays there -/

section Stable

variable {ws : List Lexeme} {a b : Arena}

theorem Arena.stable_leaf (i : NodeId) (tag : NodeTag) (P : Lexeme → Prop) :
    Stable fun a => a.Leaf ws i tag P := by
  rintro a b h ⟨t, ht, hi⟩
  exact ⟨t, ht, h.has hi⟩

theorem Arena.Extends.wraps (h : a.Extends b) {i : NodeId} {shown shown' : List NodeId → Prop}
    (hshown : ∀ ks, shown ks → shown' ks) (hi : a.Wraps i shown) : b.Wraps i shown' := by
  obtain ⟨ks, hks, ho⟩ := hi
  exact ⟨ks, hshown ks hks, h.owns ho⟩

theorem Arena.Extends.calls (h : a.Extends b) {i : NodeId} {f : Builtin} {js : List NodeId}
    (hi : a.Calls ws i f js) : b.Calls ws i f js := by
  obtain ⟨t, ht, ho⟩ := hi
  exact ⟨t, ht, h.owns ho⟩

theorem Expr.ShownIn.mono (h : a.Extends b) {l : Level} {e : PlainExpr l} {r : Placed l}
    (he : e.ShownIn ws a r) : e.ShownIn ws b r := by
  induction e with
  | var v => exact stable_leaf _ _ _ h he
  | number n => exact stable_leaf _ _ _ h he
  | group e ih => exact h.wraps (fun _ => ih) he
  | abs _ e ih =>
    obtain ⟨j, hj, hi⟩ := he
    exact ⟨j, h.wraps (fun _ => ih) hj, h.calls hi⟩
  | rnd _ e ih =>
    obtain ⟨j, hj, hi⟩ := he
    exact ⟨j, h.wraps (fun _ => ih) hj, h.calls hi⟩
  | mod _ e₁ e₂ ih₁ ih₂ =>
    obtain ⟨j₁, j₂, hj₁, hj₂, hi⟩ := he
    exact ⟨j₁, j₂, h.wraps (fun _ => ih₁) hj₁, h.wraps (fun _ => ih₂) hj₂, h.calls hi⟩
  | factor b ih =>
    obtain ⟨j, k, hj, hk, hks⟩ := he
    exact ⟨j, k, ih hj, h.has hk, hks⟩
  | scale p o b ihp ihb =>
    obtain ⟨ks', j, k, hp, hj, hk, hks⟩ := he
    exact ⟨ks', j, k, ihp hp, ihb hj, h.has hk, hks⟩
  | signed s p ih =>
    obtain ⟨ks', k, hp, hk, hks⟩ := he
    exact ⟨ks', k, ih hp, h.owns hk, hks⟩
  | add e s p ihe ihp =>
    obtain ⟨ks₁, ks₂, k, he, hp, hk, hks⟩ := he
    exact ⟨ks₁, ks₂, k, ihe he, ihp hp, h.owns hk, hks⟩

theorem Expr.stable_shownIn {l : Level} (e : PlainExpr l) (r : Placed l) : Stable fun a => e.ShownIn ws a r :=
  fun _ _ h he => ShownIn.mono h he

theorem Expr.stable_wholeIn (e : PlainExpr .sum) (i : NodeId) : Stable fun a => e.WholeIn ws a i :=
  fun _ _ h he => h.wraps (fun _ => ShownIn.mono h) he

theorem Item.stable_shownIn (item : PlainItem) (i : NodeId) : Stable fun a => item.ShownIn ws a i := by
  intro a b h hi
  cases item with
  | text s => exact stable_leaf _ _ _ h hi
  | value e => exact e.stable_wholeIn i h hi

theorem Letter.stable_shownIn (v : Letter) (i : NodeId) : Stable fun a => v.ShownIn ws a i :=
  fun _ _ h hi => stable_leaf _ _ _ h hi

theorem Stmt.ShownIn.mono (h : a.Extends b) {s : PlainStmt} {t : TokenId} {i : NodeId}
    (hs : s.ShownIn ws a t i) : s.ShownIn ws b t i := by
  induction s generalizing t i with
  | print _ item more =>
    obtain ⟨js, hjs, hi⟩ := hs
    exact ⟨js, hjs.imp fun item j => item.stable_shownIn j h, h.owns hi⟩
  | input _ v more =>
    obtain ⟨js, hjs, hi⟩ := hs
    exact ⟨js, hjs.imp fun v j => v.stable_shownIn j h, h.owns hi⟩
  | assign v e =>
    obtain ⟨j, hj, ht, hi⟩ := hs
    exact ⟨j, e.stable_wholeIn j h hj, ht, h.has hi⟩
  | branch _ e₁ r _ e₂ body ih =>
    obtain ⟨j₁, j₂, tr, c, tb, b, hj₁, hj₂, htr, hc, hb, hi⟩ := hs
    exact ⟨j₁, j₂, tr, c, tb, b, e₁.stable_wholeIn j₁ h hj₁, e₂.stable_wholeIn j₂ h hj₂, htr, h.has hc, ih hb,
      h.has hi⟩
  | goto _ e =>
    obtain ⟨j, hj, hi⟩ := hs
    exact ⟨j, e.stable_wholeIn j h hj, h.has hi⟩
  | gosub _ e =>
    obtain ⟨j, hj, hi⟩ := hs
    exact ⟨j, e.stable_wholeIn j h hj, h.has hi⟩
  | action _ k => exact h.has hs

theorem Stmt.stable_shownIn (s : PlainStmt) (t : TokenId) (i : NodeId) : Stable fun a => s.ShownIn ws a t i :=
  fun _ _ h hs => ShownIn.mono h hs

theorem Clause.stable_shownIn (c : Clause) (i : NodeId) : Stable fun a => c.ShownIn ws a i := by
  rintro a b h ⟨j, hj, hi⟩
  refine ⟨j, hj.mono h, ?_⟩
  cases hn : c.line.number with
  | none =>
    rw [hn] at hi
    exact h.has hi
  | some n =>
    rw [hn] at hi
    obtain ⟨t, ht, hi⟩ := hi
    exact ⟨t, ht, h.has hi⟩

end Stable

/-! ### What is shown is there -/

section Holds

variable {ws : List Lexeme} {a : Arena} {i : NodeId}

theorem Expr.ShownIn.holds_operand {e : PlainExpr .operand} (h : e.ShownIn ws a i) : a.Holds i := by
  cases e with
  | var v =>
    obtain ⟨t, -, hi⟩ := h
    exact ⟨_, hi⟩
  | number n =>
    obtain ⟨t, -, hi⟩ := h
    exact ⟨_, hi⟩
  | group e =>
    obtain ⟨ks, -, hi⟩ := h
    exact hi.holds
  | abs _ e =>
    obtain ⟨j, -, t, -, hi⟩ := h
    exact hi.holds
  | rnd _ e =>
    obtain ⟨j, -, t, -, hi⟩ := h
    exact hi.holds
  | mod _ e₁ e₂ =>
    obtain ⟨j₁, j₂, -, -, t, -, hi⟩ := h
    exact hi.holds

theorem forall_mem_concat {α : Type} {P : α → Prop} {xs : List α} {x : α} (hxs : ∀ y ∈ xs, P y) (hx : P x) :
    ∀ y ∈ xs ++ [x], P y := by
  simpa [or_imp, forall_and] using ⟨hxs, hx⟩

theorem Expr.ShownIn.holds_product {ks : List NodeId} : {p : PlainExpr .product} → p.ShownIn ws a ks →
    ∀ k ∈ ks, a.Holds k
  | .factor _, h => by
    obtain ⟨j, k, -, hk, rfl⟩ := h
    exact List.forall_mem_singleton.2 ⟨_, hk⟩
  | .scale _ _ _, h => by
    obtain ⟨ks', j, k, hp, -, hk, rfl⟩ := h
    exact forall_mem_concat hp.holds_product ⟨_, hk⟩

theorem Expr.ShownIn.holds_sum {ks : List NodeId} : {e : PlainExpr .sum} → e.ShownIn ws a ks →
    ∀ k ∈ ks, a.Holds k
  | .signed _ _, h => by
    obtain ⟨ks', k, -, hk, rfl⟩ := h
    exact List.forall_mem_singleton.2 hk.holds
  | .add _ _ _, h => by
    obtain ⟨ks₁, ks₂, k, he, -, hk, rfl⟩ := h
    exact forall_mem_concat he.holds_sum hk.holds

theorem Expr.WholeIn.holds {e : PlainExpr .sum} (h : e.WholeIn ws a i) : a.Holds i := by
  obtain ⟨ks, -, hi⟩ := h
  exact hi.holds

theorem Item.ShownIn.holds {item : PlainItem} (h : item.ShownIn ws a i) : a.Holds i := by
  cases item with
  | text s =>
    obtain ⟨t, -, hi⟩ := h
    exact ⟨_, hi⟩
  | value e => exact Expr.WholeIn.holds h

theorem Stmt.ShownIn.holds {s : PlainStmt} {t : TokenId} (h : s.ShownIn ws a t i) : a.Holds i := by
  cases s with
  | print _ item more =>
    obtain ⟨js, -, hi⟩ := h
    exact hi.holds
  | input _ v more =>
    obtain ⟨js, -, hi⟩ := h
    exact hi.holds
  | assign v e =>
    obtain ⟨j, -, -, hi⟩ := h
    exact ⟨_, hi⟩
  | branch _ e₁ r _ e₂ body =>
    obtain ⟨j₁, j₂, tr, c, tb, b, -, -, -, -, -, hi⟩ := h
    exact ⟨_, hi⟩
  | goto _ e =>
    obtain ⟨j, -, hi⟩ := h
    exact ⟨_, hi⟩
  | gosub _ e =>
    obtain ⟨j, -, hi⟩ := h
    exact ⟨_, hi⟩
  | action _ k => exact ⟨_, h⟩

theorem Clause.ShownIn.holds {c : Clause} (h : c.ShownIn ws a i) : a.Holds i := by
  obtain ⟨b, -, hi⟩ := h
  cases hn : c.line.number with
  | none =>
    rw [hn] at hi
    exact ⟨_, hi⟩
  | some n =>
    rw [hn] at hi
    obtain ⟨t, -, hi⟩ := hi
    exact ⟨_, hi⟩

theorem Stmt.ShownIn.exists_token {ws : List Lexeme} {a : Arena} {s : PlainStmt} {t : TokenId}
    {i : NodeId} (h : s.ShownIn ws a t i) : ∃ n, a.Has i n ∧ n.token = some t := by
  cases s with
  | print _ item more =>
    obtain ⟨js, -, n, hn, -, ht, -⟩ := h
    exact ⟨n, hn, ht⟩
  | input _ v more =>
    obtain ⟨js, -, n, hn, -, ht, -⟩ := h
    exact ⟨n, hn, ht⟩
  | assign v e =>
    obtain ⟨j, -, -, hi⟩ := h
    exact ⟨_, hi, rfl⟩
  | branch _ e₁ r _ e₂ body =>
    obtain ⟨j₁, j₂, tr, c, tb, b, -, -, -, -, -, hi⟩ := h
    exact ⟨_, hi, rfl⟩
  | goto _ e =>
    obtain ⟨j, -, hi⟩ := h
    exact ⟨_, hi, rfl⟩
  | gosub _ e =>
    obtain ⟨j, -, hi⟩ := h
    exact ⟨_, hi, rfl⟩
  | action _ k => exact ⟨_, h, rfl⟩

theorem Arena.isLine_lhs {ws : List Lexeme} {a : Arena} {i b : NodeId} {number : Option Numeral}
    (h : a.IsLine ws i b number) : ∃ n, a.Has i n ∧ n.lhs = some b ∧
      (n.tag = .nakedLine ∨ n.tag = .markedLine) := by
  cases number with
  | none => exact ⟨_, h, rfl, .inl rfl⟩
  | some n =>
    obtain ⟨t, -, hi⟩ := h
    exact ⟨_, hi, rfl, .inr rfl⟩

theorem forall_holds {α : Type} {shown : α → NodeId → Prop} {as : List α} {is : List NodeId}
    (h : List.Forall₂ shown as is) (hshown : ∀ x i, shown x i → a.Holds i) : ∀ i ∈ is, a.Holds i := by
  induction h with
  | nil => simp
  | cons hx _ ih => exact List.forall_mem_cons.2 ⟨hshown _ _ hx, ih⟩

end Holds

end LineBasic

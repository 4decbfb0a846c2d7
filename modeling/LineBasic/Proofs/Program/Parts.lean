import LineBasic.Proofs.Arena.Layout
import LineBasic.Proofs.Machine.Kinds
import LineBasic.Proofs.Machine.Subroutines

/-!
# The part of the program at a node

Every node of a parsed program belongs to a part of its plain lines. From the root down, the nodes to which a part
refers are those of its own parts, and every node is referred to.

## Main definitions

* `Arena.Part`: a part of a plain line is shown at a node.

## Main results

* `Arena.Orderly.forall_references`: what the references of the root have, and references inherit, all nodes have.
* `Arena.Part.reference`: the parts of a part.
* `Program.Means.part`: the nodes of a parsed program.
-/

namespace LineBasic

namespace Arena

/-! ### From the root down -/

section Orderly

variable {a : Arena} {tags : List Tag} {i : Nat}

/-- Every node but the root is referred to, by the root or by a later node. -/
theorem Orderly.exists_reference (h : a.Orderly tags) (hi : 0 < i) (hsize : i < a.nodes.size) :
    ∃ j n, a.nodes[j]? = some n ∧ i ∈ a.references n ∧ (j = 0 ∨ i < j) := by
  have hused : i ∈ a.nodes.toList.flatMap Node.direct ++ a.extra.toList := by
    rw [h.once.mem_iff, List.mem_range'_1]
    omega
  -- A node refers to another one by itself or by its range.
  have hreferred : ∃ n ∈ a.nodes.toList, i ∈ a.references n := by
    rcases List.mem_append.1 hused with hdirect | hextra
    · obtain ⟨n, hn, hin⟩ := List.mem_flatMap.1 hdirect
      refine ⟨n, hn, ?_⟩
      rw [Node.direct] at hin
      split at hin
      · cases hin
      · rwa [references, if_neg ‹_›]
    · rw [h.extra] at hextra
      obtain ⟨n, hn, hin⟩ := List.mem_flatMap.1 hextra
      refine ⟨n, ?_, ?_⟩
      · exact (List.mem_append.1 hn).elim List.mem_of_mem_tail List.mem_of_mem_take
      · rw [owned] at hin
        split at hin
        · rwa [references, if_pos ‹_›]
        · cases hin
  obtain ⟨n, hn, hin⟩ := hreferred
  obtain ⟨j, hj⟩ := List.mem_iff_getElem?.1 hn
  rw [Array.getElem?_toList] at hj
  refine ⟨j, n, hj, hin, ?_⟩
  rcases Nat.eq_zero_or_pos j with hzero | hpos
  · exact .inl hzero
  · exact .inr (h.descends j n hpos hj i hin).2

/-- What the nodes have to which the root refers, and what nodes pass on to those to which they refer, all nodes
have. -/
theorem Orderly.forall_references (h : a.Orderly tags) {P : NodeId → Prop}
    (hstep : ∀ j n, a.nodes[j]? = some n → j = 0 ∨ P j → ∀ i ∈ a.references n, P i) (hi : 0 < i)
    (hsize : i < a.nodes.size) : P i := by
  -- References lead to earlier nodes, so the induction is on the nodes behind this one.
  induction hk : a.nodes.size - i using Nat.strongRecOn generalizing i with
  | ind k ih =>
    obtain ⟨j, n, hj, hin, hlater⟩ := h.exists_reference hi hsize
    refine hstep j n hj ?_ i hin
    rcases hlater with hzero | hlt
    · exact .inl hzero
    · obtain ⟨hjsize, -⟩ := Array.getElem?_eq_some_iff.1 hj
      exact .inr (ih (a.nodes.size - j) (by omega) (by omega) hjsize rfl)

end Orderly

/-! ### Parts of plain lines -/

section Parts

variable (ws : List Lexeme) (a : Arena) (levels : Nat)

/-- A line, or a part of one, is shown at a node, and is nested within some levels. -/
inductive Part (i : NodeId) : Prop
  | line {c : Clause} (h : c.ShownIn ws a i) (hn : c.line.body.nesting ≤ levels)
  | statement {s : PlainStmt} {t : TokenId} (h : s.ShownIn ws a t i) (hn : s.nesting ≤ levels)
  | condition {e₁ e₂ : PlainExpr .sum} {t : TokenId} {j₁ j₂ : NodeId} (h₁ : e₁.WholeIn ws a j₁)
      (h₂ : e₂.WholeIn ws a j₂) (h : a.Has i ⟨.predicate, some t, some j₁, some j₂⟩) (hn₁ : e₁.nesting ≤ levels)
      (hn₂ : e₂.nesting ≤ levels)
  | text {s : Body} (h : a.Leaf ws i .string (·.IsBody s))
  | whole {e : PlainExpr .sum} (h : e.WholeIn ws a i) (hn : e.nesting ≤ levels)
  | term {p : PlainExpr .product} {s : Sign} {ks : List NodeId} (hp : p.ShownIn ws a ks)
      (h : a.Owns i (.term s) none ks) (hn : p.nesting ≤ levels)
  | factor {b : PlainExpr .operand} {o : Scale} {j : NodeId} (hb : b.ShownIn ws a j)
      (h : a.Has i ⟨.factor o, none, some j, none⟩) (hn : b.nesting ≤ levels)
  | operand {b : PlainExpr .operand} (h : b.ShownIn ws a i) (hn : b.nesting ≤ levels)

variable {ws a levels} {i j : NodeId} {n : Node}

/-- An expression that stands at a node of its own refers to its terms. -/
theorem part_of_sum {ks : List NodeId} : {e : PlainExpr .sum} → e.ShownIn ws a ks → e.nesting ≤ levels →
    ∀ k ∈ ks, a.Part ws levels k
  | .signed _ _, h, hn => by
    obtain ⟨ks', k, hp, hk, rfl⟩ := h
    exact List.forall_mem_singleton.2 (.term hp hk (Nat.le_of_succ_le hn))
  | .add _ _ _, h, hn => by
    obtain ⟨ks₁, ks₂, k, he, hp, hk, rfl⟩ := h
    obtain ⟨hne, hnp⟩ := Nat.max_le.1 hn
    exact forall_mem_concat (part_of_sum he hne) (.term hp hk (Nat.le_of_succ_le hnp))

/-- A term refers to its factors. -/
theorem part_of_product {ks : List NodeId} : {p : PlainExpr .product} → p.ShownIn ws a ks → p.nesting ≤ levels →
    ∀ k ∈ ks, a.Part ws levels k
  | .factor _, h, hn => by
    obtain ⟨j, k, hb, hk, rfl⟩ := h
    exact List.forall_mem_singleton.2 (.factor hb hk hn)
  | .scale _ _ _, h, hn => by
    obtain ⟨ks', j, k, hp, hb, hk, rfl⟩ := h
    obtain ⟨hnp, hnb⟩ := Nat.max_le.1 hn
    exact forall_mem_concat (part_of_product hp hnp) (.factor hb hk hnb)

theorem part_of_item : {item : PlainItem} → item.ShownIn ws a i → item.nesting ≤ levels → a.Part ws levels i
  | .text _, h, _ => .text h
  | .value _, h, hn => .whole h hn

theorem Owns.references_eq {tag : NodeTag} {token : Option TokenId} {ks : List NodeId} (h : a.Owns i tag token ks)
    (hrange : tag.hasRange) (hn : a.nodes[i]? = some n) : a.references n = ks := by
  obtain ⟨n', hn', rfl, -, -, hks⟩ := h
  obtain rfl := Option.some.inj (hn'.2.symm.trans hn)
  rw [references, if_pos hrange, hks]

theorem Has.references_eq {m : Node} (h : a.Has i m) (hrange : m.tag.hasRange = false) (hn : a.nodes[i]? = some n) :
    a.references n = m.lhs.toList ++ m.rhs.toList := by
  obtain rfl := Option.some.inj (h.2.symm.trans hn)
  rw [references, if_neg (by rw [hrange]; exact Bool.false_ne_true)]

theorem Leaf.references_eq {tag : NodeTag} {P : Lexeme → Prop} (h : a.Leaf ws i tag P)
    (hrange : tag.hasRange = false) (hn : a.nodes[i]? = some n) : a.references n = [] := by
  obtain ⟨t, -, hi⟩ := h
  exact hi.references_eq hrange hn

theorem Wraps.part {e : PlainExpr .sum} (h : e.WholeIn ws a i) (hlevels : e.nesting ≤ levels)
    (hn : a.nodes[i]? = some n) : ∀ j ∈ a.references n, a.Part ws levels j := by
  obtain ⟨ks, hks, hi⟩ := h
  rw [hi.references_eq rfl hn]
  exact part_of_sum hks hlevels

/-- An operand refers to the terms of the expression in parentheses, or to its arguments. -/
theorem part_of_operand {b : PlainExpr .operand} (h : b.ShownIn ws a i) (hlevels : b.nesting ≤ levels)
    (hn : a.nodes[i]? = some n) : ∀ j ∈ a.references n, a.Part ws levels j := by
  have call {f : Builtin} {js : List NodeId} (hi : a.Calls ws i f js) (hjs : ∀ j ∈ js, a.Part ws levels j) :
      ∀ j ∈ a.references n, a.Part ws levels j := by
    obtain ⟨t, -, hi⟩ := hi
    rwa [hi.references_eq rfl hn]
  cases b with
  | var v =>
    rw [Leaf.references_eq h rfl hn]
    exact List.forall_mem_nil _
  | number m =>
    rw [Leaf.references_eq h rfl hn]
    exact List.forall_mem_nil _
  | group e => exact Wraps.part h hlevels hn
  | abs _ e =>
    obtain ⟨k, hk, hi⟩ := h
    exact call hi (List.forall_mem_singleton.2 (.whole hk hlevels))
  | rnd _ e =>
    obtain ⟨k, hk, hi⟩ := h
    exact call hi (List.forall_mem_singleton.2 (.whole hk hlevels))
  | mod _ e₁ e₂ =>
    obtain ⟨k₁, k₂, hk₁, hk₂, hi⟩ := h
    obtain ⟨hn₁, hn₂⟩ := Nat.max_le.1 hlevels
    exact call hi (List.forall_mem_cons.2 ⟨.whole hk₁ hn₁, List.forall_mem_singleton.2 (.whole hk₂ hn₂)⟩)

/-- A statement refers to its items, variables, expressions and conditions, and IF to another statement. -/
theorem part_of_statement {s : PlainStmt} {t : TokenId} (h : s.ShownIn ws a t i) (hlevels : s.nesting ≤ levels)
    (hn : a.nodes[i]? = some n) : ∀ j ∈ a.references n, a.Part ws levels j := by
  cases s with
  | print _ item more =>
    obtain ⟨js, hjs, hi⟩ := h
    rw [hi.references_eq rfl hn]
    have hitems : ∀ item' ∈ item :: more, item'.nesting ≤ levels :=
      List.forall_mem_cons.2 (Stmt.nesting_print_le_iff.1 hlevels)
    intro j hj
    obtain ⟨item', hmem, hitem'⟩ := exists_mem_of_forall₂ hjs.flip hj
    exact part_of_item hitem' (hitems item' hmem)
  | input _ v more =>
    obtain ⟨js, hjs, hi⟩ := h
    rw [hi.references_eq rfl hn]
    intro j hj
    obtain ⟨v', -, hv'⟩ := exists_mem_of_forall₂ hjs.flip hj
    exact .operand (b := .var v') hv' (Nat.zero_le _)
  | assign v e =>
    obtain ⟨k, hk, -, hi⟩ := h
    rw [hi.references_eq rfl hn]
    exact List.forall_mem_singleton.2 (.whole hk hlevels)
  | branch _ e₁ r _ e₂ body =>
    obtain ⟨j₁, j₂, tr, c, tb, b, hj₁, hj₂, -, hc, hb, hi⟩ := h
    obtain ⟨htest, hbody⟩ := Nat.max_le.1 (Nat.le_of_succ_le hlevels)
    obtain ⟨hn₁, hn₂⟩ := Nat.max_le.1 htest
    rw [hi.references_eq rfl hn]
    exact List.forall_mem_cons.2
      ⟨.condition hj₁ hj₂ hc hn₁ hn₂, List.forall_mem_singleton.2 (.statement hb hbody)⟩
  | goto _ e =>
    obtain ⟨k, hk, hi⟩ := h
    rw [hi.references_eq rfl hn]
    exact List.forall_mem_singleton.2 (.whole hk hlevels)
  | gosub _ e =>
    obtain ⟨k, hk, hi⟩ := h
    rw [hi.references_eq rfl hn]
    exact List.forall_mem_singleton.2 (.whole hk hlevels)
  | action _ k =>
    rw [Has.references_eq h rfl hn]
    exact List.forall_mem_nil _

/-- The nodes to which the node of a part refers are those of its own parts. -/
theorem Part.reference (h : a.Part ws levels i) (hn : a.nodes[i]? = some n) :
    ∀ j ∈ a.references n, a.Part ws levels j := by
  cases h with
  | @line c h hlevels =>
    obtain ⟨b, hb, hi⟩ := h
    have hline : a.references n = [b] := by
      cases hnumber : c.line.number with
      | none =>
        rw [hnumber] at hi
        exact hi.references_eq rfl hn
      | some number =>
        rw [hnumber] at hi
        obtain ⟨t, -, hi⟩ := hi
        exact hi.references_eq rfl hn
    rw [hline]
    exact List.forall_mem_singleton.2 (.statement hb hlevels)
  | statement h hlevels => exact part_of_statement h hlevels hn
  | condition h₁ h₂ h hn₁ hn₂ =>
    rw [h.references_eq rfl hn]
    exact List.forall_mem_cons.2 ⟨.whole h₁ hn₁, List.forall_mem_singleton.2 (.whole h₂ hn₂)⟩
  | text h =>
    rw [h.references_eq rfl hn]
    exact List.forall_mem_nil _
  | whole h hlevels => exact Wraps.part h hlevels hn
  | term hp h hlevels =>
    rw [h.references_eq rfl hn]
    exact part_of_product hp hlevels
  | factor hb h hlevels =>
    rw [h.references_eq rfl hn]
    exact List.forall_mem_singleton.2 (.operand hb hlevels)
  | operand h hlevels => exact part_of_operand h hlevels hn

/-- A node with the tag of an expression belongs to one, and a node with the tag of a statement to a statement. -/
theorem Part.of_tag (h : a.Part ws levels i) (hn : a.nodes[i]? = some n) :
    (n.tag = .expression → ∃ e : PlainExpr .sum, e.WholeIn ws a i ∧ e.nesting ≤ levels) ∧
      (n.tag.isStatement → ∃ (s : PlainStmt) (t : TokenId), s.ShownIn ws a t i) := by
  -- All other parts have nodes with tags of neither kind.
  have other (hexpression : n.tag ≠ .expression) (hstatement : n.tag.isStatement = false) :
      (n.tag = .expression → ∃ e : PlainExpr .sum, e.WholeIn ws a i ∧ e.nesting ≤ levels) ∧
        (n.tag.isStatement → ∃ (s : PlainStmt) (t : TokenId), s.ShownIn ws a t i) :=
    ⟨fun htag => absurd htag hexpression, fun htag => absurd htag (by rw [hstatement]; exact Bool.false_ne_true)⟩
  have has {m : Node} (hi : a.Has i m) : n = m := Option.some.inj (hn.symm.trans hi.2)
  have owns {tag : NodeTag} {token : Option TokenId} {ks : List NodeId} (hi : a.Owns i tag token ks) :
      n.tag = tag := by
    obtain ⟨m, hm, htag, -⟩ := hi
    rwa [has hm]
  cases h with
  | line h _ =>
    obtain ⟨b, -, hi⟩ := h
    obtain ⟨m, hm, -, htag⟩ := isLine_lhs hi
    obtain rfl := has hm
    rcases htag with htag | htag
    · exact other (by rw [htag]; nofun) (by rw [htag]; rfl)
    · exact other (by rw [htag]; nofun) (by rw [htag]; rfl)
  | @statement s t h _ =>
    refine ⟨fun htag => ?_, fun _ => ⟨s, t, h⟩⟩
    rw [h.tag_eq hn] at htag
    cases s <;> cases htag
  | condition _ _ h _ _ =>
    obtain rfl := has h
    exact other nofun rfl
  | text h =>
    obtain ⟨t, -, hi⟩ := h
    obtain rfl := has hi
    exact other nofun rfl
  | @whole e h hlevels =>
    refine ⟨fun _ => ⟨e, h, hlevels⟩, fun htag => ?_⟩
    obtain ⟨ks, -, hi⟩ := h
    rw [owns hi] at htag
    cases htag
  | term _ h _ => exact other (by rw [owns h]; nofun) (by rw [owns h]; rfl)
  | factor _ h _ =>
    obtain rfl := has h
    exact other nofun rfl
  | @operand b h hlevels =>
    cases b with
    | var v | number m =>
      obtain ⟨t, -, hi⟩ := h
      obtain rfl := has hi
      exact other nofun rfl
    | group e =>
      refine ⟨fun _ => ⟨e, h, hlevels⟩, fun htag => ?_⟩
      obtain ⟨ks, -, hi⟩ := h
      rw [owns hi] at htag
      cases htag
    | abs _ e | rnd _ e =>
      obtain ⟨k, -, t, -, hi⟩ := h
      exact other (by rw [owns hi]; nofun) (by rw [owns hi]; rfl)
    | mod _ e₁ e₂ =>
      obtain ⟨k₁, k₂, -, -, t, -, hi⟩ := h
      exact other (by rw [owns hi]; nofun) (by rw [owns hi]; rfl)

end Parts

end Arena

/-! ### Parsed programs -/

/-- Every node of a parsed program but the root belongs to a part of its plain lines. -/
theorem Program.Means.part {p : Program} {clauses : List Clause} (h : p.Means clauses) {i : NodeId} {n : Node}
    (hn : p.arena.nodes[i]? = some n) (htag : n.tag ≠ .root) : p.arena.Part p.lexemes Grammar.maxNesting i := by
  have hnesting := h.nesting_le
  obtain ⟨lines, hlines, hclauses⟩ := h
  have horderly := hlines.orderly
  obtain ⟨front, eof, -, -, -, harena⟩ := hlines
  have hshows : p.arena.Shows p.lexemes clauses := harena ▸ Arena.shows_ofLines hclauses
  obtain ⟨root, hroot, hroot', -, -, hshown⟩ := hshows.root
  have hpos : 0 < i := by
    refine Nat.pos_of_ne_zero ?_
    rintro rfl
    obtain rfl := Option.some.inj (hn.symm.trans hroot)
    exact htag hroot'
  refine horderly.forall_references (fun j m hm hpart => ?_) hpos (Arena.Has.lt_size ⟨hpos, hn⟩)
  rcases hpart with rfl | hpart
  · obtain rfl := Option.some.inj (hm.symm.trans hroot)
    rw [Arena.references, if_pos (by rw [hroot']; rfl)]
    intro k hk
    obtain ⟨c, hc, hck⟩ := exists_mem_of_forall₂ hshown.flip hk
    exact .line hck (hnesting c hc)
  · exact hpart.reference hm

end LineBasic

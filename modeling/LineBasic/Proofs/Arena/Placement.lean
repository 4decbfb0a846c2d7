import Mathlib.Data.List.Forall2
import LineBasic.Arena.Layout
import LineBasic.Proofs.Program.Meaning

/-!
# Placing nodes in an arena

Laying out a tree only adds to an arena, so what stands in it stays there. The root is the exception: it is
replaced when all else is done. The lemmas are therefore about the nodes behind it.

## Main definitions

* `Arena.Has`, `Arena.Owns`: a node other than the root stands at a position, and it has some children.
* `Arena.Extends`: all nodes and ranges of one arena are in another.
* `Arena.Sound`: each node has a token that suits it, a range within bounds, and refers to earlier nodes only.
* `Places`: what a layout adds, as a triple of a precondition, a layout and a postcondition.

## Main results

* `Places.node`, `Places.parent`: the triples of the two ways to add a node.
* `Places.bind`, `Places.frame`, `Places.mapM`: the rules for composing layouts.
-/

namespace LineBasic

/-- The tokens from which a node of some kind is made. -/
def NodeTag.Takes : NodeTag → Tag → Prop
  | .markedLine, t => t = .number
  | .print, t => t = .keyword .print
  | .input, t => t = .keyword .input
  | .assign, t => t = .var
  | .branch, t => t = .keyword .if
  | .goto, t => t = .keyword .goto
  | .gosub, t => t = .keyword .gosub
  | .action a, t => t = .keyword a.keyword
  | .string, t => t = .string
  | .predicate, t => ∃ r, t = .comparison r
  | .var, t => t = .var
  | .number, t => t = .number
  | .call, t => ∃ f, t = .builtin f
  | .root, _ | .nakedLine, _ | .expression, _ | .term _, _ | .factor _, _ => False

/-- A node has a token that suits its tag, or none. -/
def NodeTag.Fits (ws : List Lexeme) (tag : NodeTag) (token : Option TokenId) : Prop :=
  ∀ t ∈ token, LexemeAt ws t fun w => tag.Takes w.1

namespace Arena

/-- The nodes that a node refers to. -/
def references (a : Arena) (n : Node) : List NodeId :=
  if n.tag.hasRange then a.children n else n.lhs.toList ++ n.rhs.toList

/-- A node other than the root stands at a position. -/
def Has (a : Arena) (i : NodeId) (n : Node) : Prop := 0 < i ∧ a.nodes[i]? = some n

/-- Some node other than the root stands at a position. -/
def Holds (a : Arena) (i : NodeId) : Prop := ∃ n, a.Has i n

/-- The references of a node are the bounds of a range. -/
def Bounded (a : Arena) (n : Node) : Prop :=
  ∃ lo hi, n.lhs = some lo ∧ n.rhs = some hi ∧ lo ≤ hi ∧ hi ≤ a.extra.size

/-- A node with a range of children stands at a position. -/
def Owns (a : Arena) (i : NodeId) (tag : NodeTag) (token : Option TokenId) (ks : List NodeId) : Prop :=
  ∃ n, a.Has i n ∧ n.tag = tag ∧ n.token = token ∧ a.Bounded n ∧ a.children n = ks

/-- What is in one arena is in another one, too. -/
structure Extends (a b : Arena) : Prop where
  has : ∀ {i n}, a.Has i n → b.Has i n
  extra : a.extra.toList <+: b.extra.toList

/-- The nodes behind the root are in order: each was made from a suitable token, a range is within bounds, and
all references lead to earlier nodes. -/
structure Sound (ws : List Lexeme) (a : Arena) : Prop where
  nonempty : 0 < a.nodes.size
  fits : ∀ {i n}, a.Has i n → n.tag.Fits ws n.token
  bounded : ∀ {i n}, a.Has i n → n.tag.hasRange → a.Bounded n
  below : ∀ {i n}, a.Has i n → ∀ j ∈ a.references n, 0 < j ∧ j < i

variable {a b c : Arena} {i j : NodeId} {n : Node} {ws : List Lexeme}

theorem mem_references_lhs (h : n.tag.hasRange = false) (hj : j ∈ n.lhs) : j ∈ a.references n := by
  rw [references, h]
  exact List.mem_append_left _ (Option.mem_toList.2 hj)

theorem mem_references_rhs (h : n.tag.hasRange = false) (hj : j ∈ n.rhs) : j ∈ a.references n := by
  rw [references, h]
  exact List.mem_append_right _ (Option.mem_toList.2 hj)

theorem mem_references_children (h : n.tag.hasRange) (hj : j ∈ a.children n) : j ∈ a.references n := by
  rwa [references, if_pos h]

theorem Has.lt_size (h : a.Has i n) : i < a.nodes.size := by
  obtain ⟨hi, -⟩ := Array.getElem?_eq_some_iff.1 h.2
  exact hi

theorem holds_iff : a.Holds i ↔ 0 < i ∧ i < a.nodes.size := by
  constructor
  · rintro ⟨n, h⟩
    exact ⟨h.1, h.lt_size⟩
  · rintro ⟨h, hi⟩
    exact ⟨a.nodes[i], h, Array.getElem?_eq_getElem hi⟩

theorem Owns.holds {tag : NodeTag} {token : Option TokenId} {ks : List NodeId} (h : a.Owns i tag token ks) :
    a.Holds i := by
  obtain ⟨n, hn, -⟩ := h
  exact ⟨n, hn⟩

namespace Extends

theorem refl (a : Arena) : a.Extends a := ⟨id, List.prefix_refl _⟩

theorem trans (h : a.Extends b) (h' : b.Extends c) : a.Extends c := ⟨h'.has ∘ h.has, h.extra.trans h'.extra⟩

theorem extra_size_le (h : a.Extends b) : a.extra.size ≤ b.extra.size := by
  simpa using h.extra.length_le

theorem bounded (h : a.Extends b) (hn : a.Bounded n) : b.Bounded n := by
  obtain ⟨lo, hi, hlo, hhi, hle, hsize⟩ := hn
  exact ⟨lo, hi, hlo, hhi, hle, Nat.le_trans hsize h.extra_size_le⟩

theorem children_eq (h : a.Extends b) (hn : a.Bounded n) : b.children n = a.children n := by
  obtain ⟨lo, hi, hlo, hhi, -, hsize⟩ := hn
  obtain ⟨rest, hrest⟩ := h.extra
  have hlength : hi ≤ a.extra.toList.length := by simpa using hsize
  simp only [children, hlo, hhi, Option.getD_some, Array.toList_extract, List.extract_eq_take_drop]
  rw [← hrest, ← List.drop_take, ← List.drop_take, List.take_append_of_le_length hlength]

theorem holds (h : a.Extends b) (hi : a.Holds i) : b.Holds i := by
  obtain ⟨n, hn⟩ := hi
  exact ⟨n, h.has hn⟩

theorem owns {tag : NodeTag} {token : Option TokenId} {ks : List NodeId} (h : a.Extends b)
    (ho : a.Owns i tag token ks) : b.Owns i tag token ks := by
  obtain ⟨n, hn, htag, htoken, hbound, hks⟩ := ho
  exact ⟨n, h.has hn, htag, htoken, h.bounded hbound, (h.children_eq hbound).trans hks⟩

end Extends

/-- A property of arenas that is not lost when something is added. -/
def Stable (R : Arena → Prop) : Prop := ∀ ⦃a b : Arena⦄, a.Extends b → R a → R b

theorem Stable.and {R S : Arena → Prop} (hR : Stable R) (hS : Stable S) : Stable fun a => R a ∧ S a :=
  fun _ _ h hRS => ⟨hR h hRS.1, hS h hRS.2⟩

theorem stable_true : Stable fun _ => True := fun _ _ _ _ => trivial

theorem stable_has (i : NodeId) (n : Node) : Stable fun a => a.Has i n := fun _ _ h => h.has

end Arena

/-! ### Triples for layouts -/

open Arena

/-- From any sound arena in which `pre` holds, the layout leads to an extension that is sound and in which
`post` holds of what the layout gives. -/
def Places (ws : List Lexeme) {α : Type} (pre : Arena → Prop) (x : Layout α) (post : α → Arena → Prop) :
    Prop :=
  ∀ a : Arena, a.Sound ws → pre a →
    a.Extends (x a).2 ∧ (x a).2.Sound ws ∧ post (x a).1 (x a).2

namespace Places

variable {α β : Type} {ws : List Lexeme} {pre R : Arena → Prop} {x : Layout α} {post : α → Arena → Prop}

theorem weaken {post' : α → Arena → Prop} (h : Places ws pre x post)
    (hpost : ∀ r a, post r a → post' r a) : Places ws pre x post' := by
  intro a ha hpre
  obtain ⟨hext, hsound, h⟩ := h a ha hpre
  exact ⟨hext, hsound, hpost _ _ h⟩

theorem pure {r : α} (h : ∀ a, pre a → post r a) : Places ws pre (Pure.pure r) post :=
  fun a ha hpre => ⟨.refl a, ha, h a hpre⟩

theorem bind {y : α → Layout β} {mid : α → Arena → Prop} {post : β → Arena → Prop}
    (hx : Places ws pre x mid) (hy : ∀ r, Places ws (mid r) (y r) post) : Places ws pre (x >>= y) post := by
  intro a ha hpre
  obtain ⟨hext, hsound, hmid⟩ := hx a ha hpre
  obtain ⟨hext', hsound', hpost⟩ := hy _ _ hsound hmid
  exact ⟨hext.trans hext', hsound', hpost⟩

/-- What is there already stays there. -/
theorem frame (hR : Stable R) (h : Places ws (fun _ => True) x post) :
    Places ws R x fun r a => R a ∧ post r a := by
  intro a ha hpre
  obtain ⟨hext, hsound, hpost⟩ := h a ha trivial
  exact ⟨hext, hsound, hR hext hpre, hpost⟩

end Places

variable {ws : List Lexeme} {a : Arena}

theorem Arena.has_push {m n : Node} {i : NodeId} : Has ⟨a.nodes.push m, a.extra⟩ i n ↔
    a.Has i n ∨ 0 < i ∧ i = a.nodes.size ∧ n = m := by
  simp only [Has, Array.getElem?_push]
  by_cases hi : i = a.nodes.size
  · subst hi
    simp [eq_comm]
  · simp [hi]

/-- Adding a node to a sound arena keeps it sound if the node suits it. -/
theorem Arena.Sound.push {m : Node} (ha : a.Sound ws) (hfits : m.tag.Fits ws m.token)
    (hbounded : m.tag.hasRange → a.Bounded m) (hrefs : ∀ j ∈ a.references m, a.Holds j) :
    a.Extends ⟨a.nodes.push m, a.extra⟩ ∧ Sound ws ⟨a.nodes.push m, a.extra⟩ ∧
      Has ⟨a.nodes.push m, a.extra⟩ a.nodes.size m := by
  refine ⟨⟨fun h => has_push.2 (.inl h), List.prefix_refl _⟩, ?_, has_push.2 (.inr ⟨ha.nonempty, rfl, rfl⟩)⟩
  constructor
  · simp
  · intro i n h
    rcases has_push.1 h with h | ⟨-, -, rfl⟩
    · exact ha.fits h
    · exact hfits
  · intro i n h hrange
    rcases has_push.1 h with h | ⟨-, -, rfl⟩
    · exact ha.bounded h hrange
    · exact hbounded hrange
  · intro i n h j hj
    rcases has_push.1 h with h | ⟨-, rfl, rfl⟩
    · exact ha.below h j hj
    · exact holds_iff.1 (hrefs j hj)

theorem Arena.Sound.addRange (ha : a.Sound ws) (ks : List NodeId) :
    a.Extends ⟨a.nodes, a.extra ++ ks⟩ ∧ Sound ws ⟨a.nodes, a.extra ++ ks⟩ := by
  have hext : a.Extends ⟨a.nodes, a.extra ++ ks⟩ := ⟨id, by simp⟩
  refine ⟨hext, ha.nonempty, ha.fits, fun h hrange => hext.bounded (ha.bounded h hrange), ?_⟩
  intro i n h j hj
  -- The ranges of the nodes that are there lie in front of the new one.
  refine ha.below h j ?_
  unfold references at hj ⊢
  split at hj
  · rename_i hrange
    rwa [if_pos hrange, ← hext.children_eq (ha.bounded h hrange)]
  · rwa [if_neg ‹_›]

theorem size_append_list {α : Type} (xs : Array α) (ys : List α) : (xs ++ ys).size = xs.size + ys.length := by
  rw [← Array.length_toList, Array.toList_appendList, List.length_append, Array.length_toList]

theorem Arena.children_addRange (a : Arena) (ks : List NodeId) (tag : NodeTag) (token : Option TokenId) :
    children ⟨a.nodes, a.extra ++ ks⟩ ⟨tag, token, some a.extra.size, some (a.extra.size + ks.length)⟩ = ks := by
  simp only [children, Option.getD_some, Array.toList_extract, List.extract_eq_take_drop]
  simp

/-- A node without children is added after the nodes that it names. -/
theorem Places.node {R : Arena → Prop} {tag : NodeTag} {token : Option TokenId} {lhs rhs : Option NodeId}
    (hR : Stable R) (hfits : tag.Fits ws token) (hrange : tag.hasRange = false)
    (hrefs : ∀ a, R a → ∀ j ∈ lhs.toList ++ rhs.toList, a.Holds j) :
    Places ws R (Layout.node tag token lhs rhs) fun i a => R a ∧ a.Has i ⟨tag, token, lhs, rhs⟩ := by
  intro a ha hpre
  obtain ⟨hext, hsound, hhas⟩ := ha.push (m := ⟨tag, token, lhs, rhs⟩) hfits (by simp [hrange])
    (by simpa [references, hrange] using hrefs a hpre)
  exact ⟨hext, hsound, hR hext hpre, hhas⟩

/-- A node with children is added after them. -/
theorem Places.parent {R : Arena → Prop} {tag : NodeTag} {token : Option TokenId} {ks : List NodeId}
    (hR : Stable R) (hfits : tag.Fits ws token) (hrange : tag.hasRange) (hks : ∀ a, R a → ∀ k ∈ ks, a.Holds k) :
    Places ws R (Layout.parent tag token ks) fun i a => R a ∧ a.Owns i tag token ks := by
  intro a ha hpre
  obtain ⟨hext, hsound⟩ := ha.addRange ks
  let m : Node := ⟨tag, token, some a.extra.size, some (a.extra.size + ks.length)⟩
  have hchildren := a.children_addRange ks tag token
  have hsize := size_append_list a.extra ks
  have hbounded : Bounded ⟨a.nodes, a.extra ++ ks⟩ m :=
    ⟨_, _, rfl, rfl, Nat.le_add_right .., Nat.le_of_eq hsize.symm⟩
  have hrefs : ∀ j ∈ references ⟨a.nodes, a.extra ++ ks⟩ m, Holds ⟨a.nodes, a.extra ++ ks⟩ j := by
    intro j hj
    rw [references, if_pos hrange, hchildren] at hj
    exact hext.holds (hks a hpre j hj)
  obtain ⟨hext', hsound', hhas⟩ := hsound.push hfits (fun _ => hbounded) hrefs
  have hrun : Layout.parent tag token ks a = (a.nodes.size, ⟨a.nodes.push m, a.extra ++ ks⟩) := by
    show (_, _) = (_, _)
    rw [hsize]
  rw [hrun]
  refine ⟨hext.trans hext', hsound', hR (hext.trans hext') hpre, m, hhas, rfl, rfl, hext'.bounded hbounded, ?_⟩
  rw [hext'.children_eq hbounded, hchildren]

theorem Places.mapM {α β : Type} {f : α → Layout NodeId} {R : α → β → Prop} {post : β → NodeId → Arena → Prop}
    (hstable : ∀ b i, Stable (post b i)) {as : List α} {bs : List β} (h : List.Forall₂ R as bs)
    (hf : ∀ x b, R x b → Places ws (fun _ => True) (f x) (post b)) :
    Places ws (fun _ => True) (as.mapM f) fun is a => List.Forall₂ (fun b i => post b i a) bs is := by
  induction h with
  | nil =>
    rw [List.mapM_nil]
    exact Places.pure fun _ _ => .nil
  | @cons x b as bs hxb _ ih =>
    rw [List.mapM_cons]
    refine Places.bind (hf x b hxb) fun i => ?_
    refine Places.bind (Places.frame (hstable b i) ih) fun is => ?_
    exact Places.pure fun a h => .cons h.1 h.2

end LineBasic

import LineBasic.Proofs.Arena.Shown

/-!
# The arena of a program

Laying out a parsed tree shows the plain tree that it means. The proofs follow the layouts step by step, and
each step is framed by what was laid out before.

## Main results

* `Expr.Means.places`, `Stmt.Means.places`, `Clause.MeantBy.places`: the triples of the parts of a tree.
* `Arena.shows_ofLines`: the arena of a program shows its lines.
-/

namespace LineBasic

open Arena

variable {ws : List Lexeme} {R : Arena → Prop}

theorem LexemeAt.imp {P Q : Lexeme → Prop} {i : TokenId} (h : LexemeAt ws i P) (hPQ : ∀ w, P w → Q w) :
    LexemeAt ws i Q := by
  obtain ⟨w, hw, hP⟩ := h
  exact ⟨w, hw, hPQ w hP⟩

theorem NodeTag.fits_none (tag : NodeTag) : tag.Fits ws none := by
  intro t ht
  cases ht

theorem NodeTag.fits_some {tag : NodeTag} {t : TokenId} {P : Lexeme → Prop} (h : LexemeAt ws t P)
    (hP : ∀ w, P w → tag.Takes w.1) : tag.Fits ws (some t) := by
  intro t' ht
  cases ht
  exact h.imp hP

namespace Places

theorem leaf {tag : NodeTag} {t : TokenId} {P : Lexeme → Prop} (hR : Stable R) (h : LexemeAt ws t P)
    (hP : ∀ w, P w → tag.Takes w.1) (hrange : tag.hasRange = false) :
    Places ws R (Layout.node tag (some t) none none) fun i a => R a ∧ a.Leaf ws i tag P :=
  (node hR (NodeTag.fits_some h hP) hrange (by simp)).weaken fun _ _ hi => ⟨hi.1, t, h, hi.2⟩

theorem wrap {e : PlainExpr .sum} {ks : List NodeId} (hR : Stable R) :
    Places ws (fun a => R a ∧ e.ShownIn ws a ks) (Layout.parent .expression none ks) fun i a =>
      R a ∧ e.WholeIn ws a i :=
  (parent (hR.and (e.stable_shownIn ks)) (NodeTag.fits_none _) rfl fun _ h => h.2.holds_sum).weaken
    fun _ _ h => ⟨h.1.1, ks, h.1.2, h.2⟩

theorem call {f : Builtin} {mark : TokenId} {js : List NodeId} (hR : Stable R)
    (hmark : LexemeAt ws mark (·.HasTag (.builtin f))) (hjs : ∀ a, R a → ∀ j ∈ js, a.Holds j) :
    Places ws R (Layout.parent .call (some mark) js) fun i a => R a ∧ a.Calls ws i f js := by
  have hfits : NodeTag.call.Fits ws (some mark) := NodeTag.fits_some hmark fun _ hw => ⟨f, hw⟩
  exact (parent hR hfits rfl hjs).weaken fun _ _ h => ⟨h.1, mark, hmark, h.2⟩

end Places

theorem Expr.Means.places {l : Level} {e : ParsedExpr l} {e' : PlainExpr l} (h : e.Means ws e') :
    Places ws (fun _ => True) e.layout fun r a => e'.ShownIn ws a r := by
  induction h with
  | var h => exact (Places.leaf stable_true h (fun w hw => by rw [hw]; rfl) rfl).weaken fun _ _ h => h.2
  | @number i n h =>
    have hfits : ∀ w : Lexeme, w.IsNumeral n → NodeTag.number.Takes w.1 := fun _ hw => hw.1
    exact (Places.leaf stable_true h hfits rfl).weaken fun _ _ h => h.2
  | @group e e' _ ih =>
    refine Places.bind (ih.frame stable_true) fun ks => ?_
    exact (Places.wrap stable_true).weaken fun i a h => h.2
  | @abs mark e e' hmark _ ih =>
    refine Places.bind (ih.frame stable_true) fun ks => Places.bind (Places.wrap stable_true) fun j => ?_
    refine (Places.call (stable_true.and (e'.stable_wholeIn j)) hmark ?_).weaken fun i a h => ⟨j, h.1.2, h.2⟩
    exact fun a h => List.forall_mem_singleton.2 h.2.holds
  | @rnd mark e e' hmark _ ih =>
    refine Places.bind (ih.frame stable_true) fun ks => Places.bind (Places.wrap stable_true) fun j => ?_
    refine (Places.call (stable_true.and (e'.stable_wholeIn j)) hmark ?_).weaken fun i a h => ⟨j, h.1.2, h.2⟩
    exact fun a h => List.forall_mem_singleton.2 h.2.holds
  | @mod mark e₁ e₂ e₁' e₂' hmark _ _ ih₁ ih₂ =>
    refine Places.bind (ih₁.frame stable_true) fun ks₁ => Places.bind (Places.wrap stable_true) fun j₁ => ?_
    -- The second argument is laid out behind the first one, which must stay where it is.
    have hfirst := stable_true.and (show Stable fun a => e₁'.WholeIn ws a j₁ from e₁'.stable_wholeIn j₁)
    refine Places.bind (ih₂.frame hfirst) fun ks₂ => Places.bind (Places.wrap hfirst) fun j₂ => ?_
    refine (Places.call (hfirst.and (e₂'.stable_wholeIn j₂)) hmark ?_).weaken fun i a h =>
      ⟨j₁, j₂, h.1.1.2, h.1.2, h.2⟩
    intro a h
    exact List.forall_mem_cons.2 ⟨h.1.2.holds, List.forall_mem_singleton.2 h.2.holds⟩
  | @factor b b' _ ih =>
    refine Places.bind ih fun j => Places.bind (Places.node (b'.stable_shownIn j) (NodeTag.fits_none _) rfl ?_)
      fun k => Places.pure fun a h => ⟨j, k, h.1, h.2, rfl⟩
    simpa using fun a h => h.holds_operand
  | @scale p p' b b' o _ _ ihp ihb =>
    refine Places.bind ihp fun ks' => Places.bind (ihb.frame (p'.stable_shownIn ks')) fun j => ?_
    refine Places.bind (Places.node ((p'.stable_shownIn ks').and (b'.stable_shownIn j)) (NodeTag.fits_none _)
      rfl ?_) fun k => Places.pure fun a h => ⟨ks', j, k, h.1.1, h.1.2, h.2, rfl⟩
    simpa using fun a _ h => h.holds_operand
  | @signed p p' s _ ih =>
    refine Places.bind ih fun ks' => Places.bind (Places.parent (p'.stable_shownIn ks') (NodeTag.fits_none _)
      rfl fun a h => h.holds_product) fun k => Places.pure fun a h => ⟨ks', k, h.1, h.2, rfl⟩
  | @add e e' p p' s _ _ ihe ihp =>
    refine Places.bind ihe fun ks₁ => Places.bind (ihp.frame (e'.stable_shownIn ks₁)) fun ks₂ => ?_
    exact Places.bind (Places.parent ((e'.stable_shownIn ks₁).and (p'.stable_shownIn ks₂))
      (NodeTag.fits_none _) rfl fun a h => h.2.holds_product)
      fun k => Places.pure fun a h => ⟨ks₁, ks₂, k, h.1.1, h.1.2, h.2, rfl⟩

theorem Expr.Means.places_whole {e : ParsedExpr .sum} {e' : PlainExpr .sum} (h : e.Means ws e') (hR : Stable R) :
    Places ws R e.layoutWhole fun i a => R a ∧ e'.WholeIn ws a i :=
  Places.bind (h.places.frame hR) fun _ => Places.wrap hR

theorem Item.Means.places {item : ParsedItem} {item' : PlainItem} (h : item.Means ws item') :
    Places ws (fun _ => True) item.layout fun i a => item'.ShownIn ws a i := by
  cases h with
  | text h => exact (Places.leaf stable_true h (fun w hw => by rw [hw]; rfl) rfl).weaken fun _ _ h => h.2
  | value he => exact (he.places_whole stable_true).weaken fun _ _ h => h.2

theorem VariableMeans.places {i : TokenId} {v : Letter} (h : VariableMeans ws i v) :
    Places ws (fun _ => True) (Layout.node .var (some i) none none) fun j a => v.ShownIn ws a j :=
  (Places.leaf stable_true h (fun w hw => by rw [hw]; rfl) rfl).weaken fun _ _ h => h.2

theorem Arena.stable_forall₂ {α : Type} {post : α → NodeId → Arena → Prop} (h : ∀ x i, Stable (post x i))
    (xs : List α) (is : List NodeId) : Stable fun a => List.Forall₂ (fun x i => post x i a) xs is :=
  fun _ _ hext hxs => hxs.imp fun x i hx => h x i hext hx

theorem Stmt.Means.places {s : ParsedStmt} {s' : PlainStmt} (h : s.Means ws s') :
    Places ws (fun _ => True) s.layout fun i a => s'.ShownIn ws a s.blame i := by
  induction h with
  | print hmark hitem hmore =>
    refine Places.bind (Places.mapM Item.stable_shownIn (.cons hitem hmore) fun _ _ => Item.Means.places)
      fun js => ?_
    refine (Places.parent (stable_forall₂ Item.stable_shownIn _ js) (NodeTag.fits_some hmark fun _ => id) rfl
      ?_).weaken fun i a h => ⟨js, h.1, h.2⟩
    exact fun a h => forall_holds h fun _ _ => Item.ShownIn.holds
  | input hmark hv hmore =>
    refine Places.bind (Places.mapM Letter.stable_shownIn (.cons hv hmore) fun _ _ => VariableMeans.places)
      fun js => ?_
    refine (Places.parent (stable_forall₂ Letter.stable_shownIn _ js) (NodeTag.fits_some hmark fun _ => id) rfl
      ?_).weaken fun i a h => ⟨js, h.1, h.2⟩
    exact fun a h => forall_holds h fun v i ⟨t, _, hi⟩ => ⟨_, hi⟩
  | @assign i v e e' hv he =>
    refine Places.bind (he.places_whole stable_true) fun j => ?_
    refine (Places.node (stable_true.and (e'.stable_wholeIn j)) (NodeTag.fits_some hv fun w hw => ?_) rfl
      ?_).weaken fun i a h => ⟨j, h.1.2, hv, h.2⟩
    · rw [hw]
      rfl
    · simpa using fun a h => h.holds
  | @branch mark relation e₁ e₂ e₁' e₂' r body body' hmark hrelation he₁ he₂ _ ih =>
    refine Places.bind (he₁.places_whole stable_true) fun j₁ => ?_
    have h₁ := stable_true.and (show Stable fun a => e₁'.WholeIn ws a j₁ from e₁'.stable_wholeIn j₁)
    refine Places.bind (he₂.places_whole h₁) fun j₂ => ?_
    have h₂ := h₁.and (show Stable fun a => e₂'.WholeIn ws a j₂ from e₂'.stable_wholeIn j₂)
    refine Places.bind (Places.node h₂ (NodeTag.fits_some hrelation fun w hw => ⟨r, hw⟩) rfl ?_) fun c => ?_
    · intro a h
      simpa using ⟨h.1.2.holds, h.2.holds⟩
    -- The test comes in front of the body, whose layout must leave it alone.
    have h₃ := h₂.and (stable_has c ⟨.predicate, some relation, some j₁, some j₂⟩)
    refine Places.bind (ih.frame h₃) fun b => ?_
    refine (Places.node (h₃.and (body'.stable_shownIn _ b)) (NodeTag.fits_some hmark fun _ => id) rfl
      ?_).weaken fun i a h => ?_
    · intro a h
      simpa using ⟨⟨_, h.1.2⟩, h.2.holds⟩
    · obtain ⟨⟨⟨⟨⟨-, hj₁⟩, hj₂⟩, hc⟩, hb⟩, hi⟩ := h
      exact ⟨j₁, j₂, relation, c, body.blame, b, hj₁, hj₂, hrelation, hc, hb, hi⟩
  | @goto mark e e' hmark he =>
    refine Places.bind (he.places_whole stable_true) fun j => ?_
    refine (Places.node (stable_true.and (e'.stable_wholeIn j)) (NodeTag.fits_some hmark fun _ => id) rfl
      ?_).weaken fun i a h => ⟨j, h.1.2, h.2⟩
    simpa using fun a h => h.holds
  | @gosub mark e e' hmark he =>
    refine Places.bind (he.places_whole stable_true) fun j => ?_
    refine (Places.node (stable_true.and (e'.stable_wholeIn j)) (NodeTag.fits_some hmark fun _ => id) rfl
      ?_).weaken fun i a h => ⟨j, h.1.2, h.2⟩
    simpa using fun a h => h.holds
  | action hmark =>
    exact (Places.node stable_true (NodeTag.fits_some hmark fun _ => id) rfl (by simp)).weaken fun _ _ h => h.2

theorem Clause.MeantBy.places {line : ParsedLine} {c : Clause} (h : c.MeantBy ws line) :
    Places ws (fun _ => True) line.layout fun i a => c.ShownIn ws a i := by
  obtain ⟨token, line'⟩ := c
  obtain ⟨h, rfl⟩ := h
  cases h with
  | @naked s s' hs =>
    refine Places.bind hs.places fun b => ?_
    refine (Places.node (s'.stable_shownIn _ b) (NodeTag.fits_none _) rfl ?_).weaken fun i a h => ⟨b, h.1, h.2⟩
    simpa using fun a h => h.holds
  | @marked i n s s' hn hs =>
    refine Places.bind hs.places fun b => ?_
    have hfits : NodeTag.markedLine.Fits ws (some i) := NodeTag.fits_some hn fun _ hw => hw.1
    refine (Places.node (s'.stable_shownIn _ b) hfits rfl ?_).weaken fun j a h => ⟨b, h.1, i, hn, h.2⟩
    simpa using fun a h => h.holds

/-! ### Programs -/

/-- The arena of a program before its root is replaced. -/
theorem places_lines {lines : List ParsedLine} {clauses : List Clause}
    (h : List.Forall₂ (Clause.MeantBy ws) lines clauses) :
    Places ws (fun _ => True) (lines.mapM Line.layout) fun is a =>
      List.Forall₂ (fun c i => c.ShownIn ws a i) clauses is :=
  Places.mapM Clause.stable_shownIn h fun _ _ => Clause.MeantBy.places

theorem Arena.Sound.setRoot {a : Arena} (ha : a.Sound ws) (root : Node) :
    a.Extends { a with nodes := a.nodes.setIfInBounds 0 root } ∧
      Sound ws { a with nodes := a.nodes.setIfInBounds 0 root } := by
  have hhas : ∀ i n, Has { a with nodes := a.nodes.setIfInBounds 0 root } i n ↔ a.Has i n := by
    intro i n
    simp only [Has, Array.getElem?_setIfInBounds]
    -- The root is no node of those that others refer to.
    refine and_congr_right fun hi => ?_
    rw [if_neg (Nat.ne_of_lt hi)]
  refine ⟨⟨fun h => (hhas _ _).2 h, List.prefix_refl _⟩, ?_⟩
  constructor
  · simpa using ha.nonempty
  · exact fun h => ha.fits ((hhas _ _).1 h)
  · exact fun h => ha.bounded ((hhas _ _).1 h)
  · exact fun h => ha.below ((hhas _ _).1 h)

/-- The arena with nothing but a root. -/
def Arena.bare : Arena := ⟨#[⟨.root, none, none, none⟩], #[]⟩

theorem Arena.sound_bare : bare.Sound ws := by
  have hnone : ∀ i n, ¬ bare.Has i n := by
    intro i n hi
    have hlt : i < 1 := hi.lt_size
    exact absurd hi.1 (Nat.not_lt.2 (Nat.le_of_lt_succ hlt))
  exact ⟨Nat.one_pos, fun h => absurd h (hnone _ _), fun h => absurd h (hnone _ _),
    fun h => absurd h (hnone _ _)⟩

/-- The range of the root comes last, and then the root itself. -/
theorem Arena.ofLines_eq {lines : List ParsedLine} {is : List NodeId} {a : Arena}
    (h : lines.mapM Line.layout bare = (is, a)) : Arena.ofLines lines =
      ⟨a.nodes.setIfInBounds 0 ⟨.root, none, some a.extra.size, some (a.extra.size + is.length)⟩,
        a.extra ++ is⟩ := by
  obtain ⟨rfl, rfl⟩ := Prod.mk.inj h.symm
  rw [← size_append_list]
  rfl

/-- The arena of a program shows its lines. -/
theorem Arena.shows_ofLines {lines : List ParsedLine} {clauses : List Clause}
    (h : List.Forall₂ (Clause.MeantBy ws) lines clauses) : (Arena.ofLines lines).Shows ws clauses := by
  obtain ⟨-, hsound, hshown⟩ := places_lines h bare sound_bare trivial
  generalize hrun : lines.mapM Line.layout bare = result at hsound hshown
  obtain ⟨is, a⟩ := result
  dsimp only at hsound hshown
  obtain ⟨hext₁, hsound₁⟩ := hsound.addRange is
  let root : Node := ⟨.root, none, some a.extra.size, some (a.extra.size + is.length)⟩
  obtain ⟨hext₂, hsound₂⟩ := hsound₁.setRoot root
  have hbounded : Bounded ⟨a.nodes, a.extra ++ is⟩ root :=
    ⟨_, _, rfl, rfl, Nat.le_add_right .., Nat.le_of_eq (size_append_list _ _).symm⟩
  rw [ofLines_eq hrun]
  refine ⟨hsound₂, root, ?_, rfl, rfl, hext₂.bounded hbounded, ?_⟩
  · exact Array.getElem?_setIfInBounds_self_of_lt hsound.nonempty
  · rw [hext₂.children_eq hbounded, a.children_addRange]
    exact hshown.imp fun c i hc => c.stable_shownIn i (hext₁.trans hext₂) hc

end LineBasic

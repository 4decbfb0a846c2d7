import Mathlib.Data.List.Forall2

/-!
# Lists that are related member by member

What is known of one of two lists whose members are related one by one carries over to the other one.

## Main results

* `forall₂_append_right_iff`, `exists_append_of_forall₂`: a list that is related to a whole comes in parts.
* `exists_mem_of_forall₂`: a member has a partner.
-/

namespace LineBasic

variable {α β γ : Type} {R : α → β → Prop} {as : List α} {bs bs' : List β}

theorem forall₂_append_right_iff : List.Forall₂ R as (bs ++ bs') ↔
    ∃ as₁, List.Forall₂ R as₁ bs ∧ ∃ as₂, List.Forall₂ R as₂ bs' ∧ as = as₁ ++ as₂ := by
  constructor
  · intro h
    exact ⟨_, List.forall₂_take_append _ _ _ h, _, List.forall₂_drop_append _ _ _ h, (List.take_append_drop _ _).symm⟩
  · rintro ⟨as₁, h₁, as₂, h₂, rfl⟩
    exact List.rel_append h₁ h₂

theorem exists_append_of_forall₂ {b : β} (h : List.Forall₂ R as (bs ++ b :: bs')) :
    ∃ front a behind, as = front ++ a :: behind ∧ front.length = bs.length ∧ R a b ∧ List.Forall₂ R behind bs' := by
  obtain ⟨front, hfront, _, hrest, rfl⟩ := forall₂_append_right_iff.1 h
  obtain ⟨a, behind, hab, hbehind, rfl⟩ := List.forall₂_cons_right_iff.1 hrest
  exact ⟨front, a, behind, rfl, hfront.length_eq, hab, hbehind⟩

theorem exists_mem_of_forall₂ (h : List.Forall₂ R as bs) {a : α} (ha : a ∈ as) : ∃ b ∈ bs, R a b := by
  obtain ⟨front, behind, rfl⟩ := List.append_of_mem ha
  obtain ⟨front', b, behind', rfl, -, hab, -⟩ := exists_append_of_forall₂ h.flip
  exact ⟨b, List.mem_append_right front' List.mem_cons_self, hab⟩

/-- Lists that are both related to a third one are related through its members. -/
theorem forall₂_common {S : α → γ → Prop} {cs : List γ} (h : List.Forall₂ R as bs) (h' : List.Forall₂ S as cs) :
    List.Forall₂ (fun b c => ∃ a, R a b ∧ S a c) bs cs := by
  induction h generalizing cs with
  | nil => cases h'; exact .nil
  | cons hab _ ih => cases h' with | cons hac hcs => exact .cons ⟨_, hab, hac⟩ (ih hcs)

/-- What related members have in common, related lists have in common. -/
theorem map_eq_of_forall₂ {f : α → γ} {g : β → γ} (h : List.Forall₂ R as bs) (hfg : ∀ a b, R a b → g b = f a) :
    bs.map g = as.map f := by
  induction h with
  | nil => rfl
  | cons hab _ ih => exact congrArg₂ List.cons (hfg _ _ hab) ih

end LineBasic

import LineBasic.Text.Decimal

/-!
# Decimal numerals

Which texts denote an integer, and that the numeral with which an integer is written denotes it.

## Main definitions

* `Decimal.Denotes`: a text denotes an integer.

## Main results

* `Decimal.signed?_eq_some_iff`: reading a numeral finds what it denotes.
* `Decimal.denotes_toString`: an integer is denoted by the numeral that is written for it.
-/

namespace LineBasic

namespace Decimal

/-- A text denotes an integer: digits, with a sign in front of them or without. -/
inductive Denotes : List Char → Int → Prop
  | bare {digits : List Char} (hne : digits ≠ []) (h : ∀ c ∈ digits, c.isDigit) : Denotes digits (value digits)
  | plus {digits : List Char} (hne : digits ≠ []) (h : ∀ c ∈ digits, c.isDigit) :
      Denotes ('+' :: digits) (value digits)
  | minus {digits : List Char} (hne : digits ≠ []) (h : ∀ c ∈ digits, c.isDigit) :
      Denotes ('-' :: digits) (-(value digits))

theorem unsigned?_eq_some_iff {digits : List Char} {n : Nat} :
    unsigned? digits = some n ↔ digits ≠ [] ∧ (∀ c ∈ digits, c.isDigit) ∧ n = value digits := by
  rw [unsigned?, ← List.all_eq_true]
  split
  · rename_i h
    rw [Option.some.injEq]
    exact ⟨fun hn => ⟨h.1, h.2, hn.symm⟩, fun hn => hn.2.2.symm⟩
  · rename_i h
    exact iff_of_false (Option.some_ne_none n).symm fun hn => h ⟨hn.1, hn.2.1⟩

/-- The same for the number as an integer. -/
theorem lift_unsigned?_eq_some_iff {digits : List Char} {k : Int} :
    (do return (← unsigned? digits : Int) : Option Int) = some k ↔
      digits ≠ [] ∧ (∀ c ∈ digits, c.isDigit) ∧ k = value digits := by
  show (unsigned? digits).bind (fun n => some (n : Int)) = some k ↔ _
  rw [Option.bind_eq_some_iff]
  constructor
  · rintro ⟨n, hn, hk⟩
    obtain ⟨hne, hall, rfl⟩ := unsigned?_eq_some_iff.1 hn
    exact ⟨hne, hall, (Option.some.inj hk).symm⟩
  · rintro ⟨hne, hall, rfl⟩
    exact ⟨_, unsigned?_eq_some_iff.2 ⟨hne, hall, rfl⟩, rfl⟩

theorem signed?_eq_some_iff {cs : List Char} {n : Int} : signed? cs = some n ↔ Denotes cs n := by
  constructor
  · intro h
    rw [signed?.eq_def] at h
    split at h
    · obtain ⟨k, hk, rfl⟩ := Option.map_eq_some_iff.1 h
      obtain ⟨hne, hall, rfl⟩ := lift_unsigned?_eq_some_iff.1 hk
      exact .minus hne hall
    · obtain ⟨k, hk, rfl⟩ := Option.map_eq_some_iff.1 h
      obtain ⟨hne, hall, rfl⟩ := lift_unsigned?_eq_some_iff.1 hk
      exact .plus hne hall
    · obtain ⟨k, hk, rfl⟩ := Option.map_eq_some_iff.1 h
      obtain ⟨hne, hall, rfl⟩ := lift_unsigned?_eq_some_iff.1 hk
      exact .bare hne hall
  · rintro (⟨hne, hall⟩ | ⟨hne, hall⟩ | ⟨hne, hall⟩)
    · rw [signed?.eq_def]
      -- The first digit is not a sign.
      split
      · cases hall _ List.mem_cons_self
      · cases hall _ List.mem_cons_self
      · rw [lift_unsigned?_eq_some_iff.2 ⟨hne, hall, rfl⟩]
        rfl
    · rw [signed?, lift_unsigned?_eq_some_iff.2 ⟨hne, hall, rfl⟩]
      rfl
    · rw [signed?, lift_unsigned?_eq_some_iff.2 ⟨hne, hall, rfl⟩]
      rfl

theorem Denotes.ne_nil {cs : List Char} {n : Int} (h : Denotes cs n) : cs ≠ [] := by
  rcases h with ⟨hne, -⟩ | - | -
  · exact hne
  · exact List.cons_ne_nil _ _
  · exact List.cons_ne_nil _ _

theorem Denotes.mem {cs : List Char} {n : Int} (h : Denotes cs n) {c : Char} (hc : c ∈ cs) :
    c.isDigit ∨ c = '+' ∨ c = '-' := by
  rcases h with ⟨-, hall⟩ | ⟨-, hall⟩ | ⟨-, hall⟩
  · exact .inl (hall c hc)
  · exact (List.mem_cons.1 hc).elim (fun h => .inr (.inl h)) fun h => .inl (hall c h)
  · exact (List.mem_cons.1 hc).elim (fun h => .inr (.inr h)) fun h => .inl (hall c h)

/-- The numeral that is written for an integer denotes it. -/
theorem denotes_toString (n : Int) : Denotes (toString n).toList n := by
  have hdigits : ∀ k : Nat, ∀ c ∈ Nat.toDigits 10 k, c.isDigit := fun k c hc =>
    Nat.isDigit_of_mem_toDigits (by decide) (by decide) hc
  have hvalue : ∀ k : Nat, value (Nat.toDigits 10 k) = k := fun k => Nat.ofDigitChars_ten_toDigits
  rw [Int.toString_eq_repr, Int.repr_eq_if]
  split
  · rename_i hpos
    have h : Denotes _ _ := .bare Nat.toDigits_ne_nil (hdigits n.toNat)
    rwa [hvalue, Int.toNat_of_nonneg hpos, ← Nat.toList_repr] at h
  · rename_i hneg
    have h : Denotes _ _ := .minus Nat.toDigits_ne_nil (hdigits (-n).toNat)
    rw [hvalue, Int.toNat_of_nonneg (by omega), Int.neg_neg, ← Nat.toList_repr] at h
    rw [String.toList_append]
    exact h

end Decimal

end LineBasic

import LineBasic.Machine.Error

/-!
# Arithmetic in sixteen bits

Results are computed exactly and must fit into sixteen bits. Division truncates, and a remainder has the sign
of the dividend.

## Main definitions

* `checked`: a result that must fit.
* `divide`, `remainder`: division, which fails for a divisor of zero.
* `Scale.apply`, `Sign.apply`: a term with a further factor, and a sum with a further term.
* `Comparison.holds`, `Comparison.relates`: relational operators on numbers and on values.
-/

namespace LineBasic

/-- A result, provided that it fits. -/
def checked (n : Int) : Except Reason Int :=
  if InRange n then .ok n else .error .mathOverflow

/-- The quotient, cut off towards zero. -/
def divide (a b : Int) : Except Reason Int :=
  if b = 0 then .error .divisionByZero else checked (a.tdiv b)

/-- What the quotient leaves of the dividend. -/
def remainder (a b : Int) : Except Reason Int :=
  if b = 0 then .error .divisionByZero else .ok (a.tmod b)

/-- The value of a term with a further factor. -/
def Scale.apply : Scale → Int → Int → Except Reason Int
  | .times, product, factor => checked (product * factor)
  | .over, product, factor => divide product factor

/-- The value of a sum with a further term. -/
def Sign.apply : Sign → Int → Int → Except Reason Int
  | .plus, total, term => checked (total + term)
  | .minus, total, term => checked (total - term)

/-- Whether a relation holds between two numbers. -/
def Comparison.holds (r : Comparison) (a b : Int) : Bool :=
  match r with
  | .eq => a = b
  | .ne => a ≠ b
  | .lt => a < b
  | .le => a ≤ b
  | .gt => a > b
  | .ge => a ≥ b

/-- Whether a relation holds between two values. Nothing equals only nothing, and it has no place in the order
of the numbers. -/
def Comparison.relates (r : Comparison) (a b : Value) : Except Fault Bool := do
  match r with
  | .eq => return a = b
  | .ne => return a ≠ b
  | _ => return r.holds (← a.toInt) (← b.toInt)

/-- The relation that a token stands for. A token that names none stands for the last one. -/
def Tag.relation : Tag → Comparison
  | .comparison r => r
  | _ => .ge

/-- The value of a condition. -/
def truth (b : Bool) : Int := if b then 1 else 0

/-- A result is what was computed, and it fits. -/
theorem checked_eq_ok_iff {n m : Int} : checked n = .ok m ↔ n = m ∧ InRange m := by
  unfold checked
  split
  · rename_i hr
    constructor
    · intro h
      cases h
      exact ⟨rfl, hr⟩
    · rintro ⟨rfl, _⟩
      rfl
  · rename_i hr
    constructor
    · intro h
      cases h
    · rintro ⟨rfl, h⟩
      exact absurd h hr

end LineBasic

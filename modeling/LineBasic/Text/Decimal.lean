/-!
# Decimal numerals

The value of a run of decimal digits and of a signed numeral, and the range of the integers that the
language computes with. Only the ten ASCII digits count as digits.

## Main definitions

* `Decimal.value`: the number that a run of digits denotes; leading zeros change nothing.
* `Decimal.signed?`: the integer that an optional sign and at least one digit denote.
* `InRange`: the integers that fit into sixteen bits with a sign.
-/

namespace LineBasic

/-- The integers that a variable can hold and an operation can yield. -/
def InRange (n : Int) : Prop := -32768 ≤ n ∧ n ≤ 32767

instance (n : Int) : Decidable (InRange n) := inferInstanceAs (Decidable (_ ∧ _))

namespace Decimal

/-- The value of one digit. -/
def digitValue (c : Char) : Nat := c.toNat - '0'.toNat

/-- The number that a run of digits denotes, the most significant digit first. -/
def value (digits : List Char) : Nat :=
  digits.foldl (fun n c => 10 * n + digitValue c) 0

@[simp] theorem value_nil : value [] = 0 := rfl

theorem value_append_singleton (digits : List Char) (c : Char) :
    value (digits ++ [c]) = 10 * value digits + digitValue c := by
  simp [value]

/-- The number that digits without a sign denote: there must be at least one, and nothing else. -/
def unsigned? (digits : List Char) : Option Nat :=
  if digits ≠ [] ∧ digits.all Char.isDigit then some (value digits) else none

/-- The integer that an optional sign and then digits denote. -/
def signed? : List Char → Option Int
  | '-' :: digits => (unsigned? digits).map fun n => -(n : Int)
  | '+' :: digits => (unsigned? digits).map fun n => (n : Int)
  | digits => (unsigned? digits).map fun n => (n : Int)

end Decimal

end LineBasic

/-!
# Hexadecimal digits

Numbers and bytes written in base sixteen with small letters.

## Main definitions

* `Hex.number`: a number with at least a given count of digits.
* `Hex.bytes`: two digits for each byte.
-/

namespace LineBasic.Hex

/-- The digits of a number, filled up with zeros to a width. -/
def number (width n : Nat) : List Char :=
  let digits := Nat.toDigits 16 n
  List.replicate (width - digits.length) '0' ++ digits

/-- Two digits for each byte. -/
def bytes (bs : List UInt8) : List Char :=
  bs.flatMap fun b => number 2 b.toNat

end LineBasic.Hex

/-!
# Classes of characters

Classes are given by the ranges of code points that belong to them.

## Main definitions

* `inRanges`: whether a code point lies in one of several ranges.
* `isWhitespace`: the characters with the property White_Space, and the four separators among the control
  characters.
* `dropTrailing`: a text without the characters of a class at its end.

Looking a code point up stops at the first range behind it, which is right for ranges in ascending order by
`inRanges_eq_any`.
-/

namespace LineBasic

/-- Ranges of code points. Both bounds of a range belong to it. -/
abbrev CodeRanges := List (Nat × Nat)

/-- Whether a code point lies in one of the ranges, which must be in ascending order. -/
def inRanges : CodeRanges → Nat → Bool
  | [], _ => false
  | (lo, hi) :: ranges, code => lo ≤ code && (code ≤ hi || inRanges ranges code)

/-- Whether ranges are in ascending order and apart from one another. -/
def ascending : CodeRanges → Bool
  | [] => true
  | [(lo, hi)] => lo ≤ hi
  | (lo, hi) :: (lo', hi') :: ranges => lo ≤ hi && hi < lo' && ascending ((lo', hi') :: ranges)

/-- Nothing in front of the first of some ascending ranges lies in any of them. -/
theorem any_eq_false_of_lt {lo hi code : Nat} {ranges : CodeRanges}
    (h : ascending ((lo, hi) :: ranges)) (hc : code < lo) :
    (ranges.any fun r => r.1 ≤ code && code ≤ r.2) = false := by
  induction ranges generalizing lo hi with
  | nil => rfl
  | cons r ranges ih =>
    obtain ⟨lo', hi'⟩ := r
    simp only [ascending, Bool.and_eq_true, decide_eq_true_eq] at h
    rw [List.any_cons, ih h.2 (by omega)]
    simp only [Bool.or_false, Bool.and_eq_false_iff, decide_eq_false_iff_not]
    omega

/-- What follows the first of some ascending ranges is in ascending order, too. -/
theorem ascending_tail {r : Nat × Nat} {ranges : CodeRanges} (h : ascending (r :: ranges)) :
    ascending ranges := by
  cases ranges with
  | nil => rfl
  | cons s ranges =>
    simp only [ascending, Bool.and_eq_true] at h
    exact h.2

/-- Looking a code point up in ascending ranges finds it if one of them holds it. -/
theorem inRanges_eq_any {ranges : CodeRanges} (h : ascending ranges) (code : Nat) :
    inRanges ranges code = ranges.any fun r => r.1 ≤ code && code ≤ r.2 := by
  induction ranges with
  | nil => rfl
  | cons r ranges ih =>
    obtain ⟨lo, hi⟩ := r
    rw [inRanges, List.any_cons, ih (ascending_tail h)]
    by_cases hc : lo ≤ code
    · simp [hc]
    · simp [hc, any_eq_false_of_lt h (Nat.lt_of_not_le hc)]

/-- The ranges of white space. -/
def whitespaceRanges : CodeRanges :=
  [(0x9, 0xD), (0x1C, 0x20), (0x85, 0x85), (0xA0, 0xA0), (0x1680, 0x1680), (0x2000, 0x200A),
    (0x2028, 0x2029), (0x202F, 0x202F), (0x205F, 0x205F), (0x3000, 0x3000)]

/-- The ranges of white space are in ascending order. -/
theorem ascending_whitespaceRanges : ascending whitespaceRanges := by decide

/-- Whether a character is white space. -/
def isWhitespace (c : Char) : Bool := inRanges whitespaceRanges c.toNat

/-- A text without the characters of a class that stand at its end. -/
def dropTrailing (p : Char → Bool) (cs : List Char) : List Char :=
  (cs.reverse.dropWhile p).reverse

/-- A text is what stands in front of its trailing characters of a class, followed by them. -/
theorem dropTrailing_append_takeWhile (p : Char → Bool) (cs : List Char) :
    dropTrailing p cs ++ (cs.reverse.takeWhile p).reverse = cs := by
  rw [dropTrailing, ← List.reverse_append, List.takeWhile_append_dropWhile, List.reverse_reverse]

end LineBasic

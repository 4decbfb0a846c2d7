import LineBasic.Proofs.Program.Parsed

/-!
# Words of a text

A text that is put together from words is cut into the same words again, provided that each of them ends in front
of a blank or a line end. All words of the language do.

## Main definitions

* `Tag.spelling`: how a tag is written that is written in one way.
* `Lexeme.ofTag`, `Lexeme.ofLetter`, `Lexeme.ofNumeral`, `Lexeme.ofBody`: the words of the language.
* `Lexeme.Closed`: a word that ends in front of a blank or a line end.
* `Cut`: a text and its words.

## Main results

* `Lexeme.closed_keyword` and so on: the words of the language are closed.
* `Cut.exists_scan_eq`: the scanner finds the words of a text.
-/

namespace LineBasic

/-- How a tag is written. Literals and the ends of texts are not written in one way, and what is invalid is not
written at all. -/
def Tag.spelling : Tag → List Char
  | .eol => ['\n']
  | .comma => [',']
  | .lparen => ['(']
  | .rparen => [')']
  | .sign .plus => ['+']
  | .sign .minus => ['-']
  | .scale .times => ['*']
  | .scale .over => ['/']
  | .comparison .eq => ['=']
  | .comparison .ne => ['<', '>']
  | .comparison .lt => ['<']
  | .comparison .le => ['<', '=']
  | .comparison .gt => ['>']
  | .comparison .ge => ['>', '=']
  | .keyword k => k.spelling.toList
  | .builtin f => f.spelling.toList
  | .invalid | .eof | .number | .string | .var => []

namespace Lexeme

/-- The word for a tag. -/
def ofTag (t : Tag) : Lexeme := (t, t.spelling)

/-- The word for a variable. -/
def ofLetter (v : Letter) : Lexeme := (.var, [v.char])

/-- The word for a number, without leading zeros. -/
def ofNumeral (n : Numeral) : Lexeme := (.number, Nat.toDigits 10 n.val)

/-- The word for a string. -/
def ofBody (s : Body) : Lexeme := (.string, '"' :: (s.val ++ ['"']))

theorem isNumeral_ofNumeral (n : Numeral) : (ofNumeral n).IsNumeral n := by
  refine ⟨rfl, ?_⟩
  rw [Decimal.unsigned?, if_pos]
  · exact congrArg some Nat.ofDigitChars_ten_toDigits
  · refine ⟨Nat.toDigits_ne_nil, List.all_eq_true.2 fun c hc => ?_⟩
    exact Nat.isDigit_of_mem_toDigits (by decide) (by decide) hc

/-- In front of a blank or a line end, the word is found. -/
def Closed (w : Lexeme) : Prop :=
  w.1 ≠ .eof ∧ ∀ c r, c = ' ' ∨ c = '\n' →
    gap false (w.2 ++ c :: r) = 0 ∧ lexeme (w.2 ++ c :: r) = .ok (w.1, w.2.length)

/-! ### The words of the language are closed -/

section Closed

variable {c : Char} {cs r : List Char}

theorem gap_eq_zero (hblank : isBlank c = false) (hremark : startsRemark (c :: cs) = false) :
    gap false (c :: cs) = 0 := by
  rw [gap, hblank, hremark]
  rfl

theorem startsRemark_eq_false (hc : c.isUpper = false) : startsRemark (c :: cs) = false := by
  rw [startsRemark, List.takeWhile_cons, hc]
  rfl

theorem takeWhile_append_cons {p : Char → Bool} (hcs : cs.all p) (hc : p c = false) :
    (cs ++ c :: r).takeWhile p = cs := by
  rw [List.takeWhile_append_of_pos (List.all_eq_true.1 hcs), List.takeWhile_cons, hc]
  simp

theorem closed_symbol {t : Tag} (ht : t ∈ [.comma, .lparen, .rparen, .sign .plus, .sign .minus, .scale .times,
    .scale .over, .comparison .eq, .comparison .ne, .comparison .lt, .comparison .le, .comparison .gt,
    .comparison .ge]) : (ofTag t).Closed := by
  simp only [List.mem_cons, List.not_mem_nil, or_false] at ht
  rcases ht with rfl | rfl | rfl | rfl | rfl | rfl | rfl | rfl | rfl | rfl | rfl | rfl | rfl <;>
  · refine ⟨by decide, fun c r hc => ⟨gap_eq_zero (by decide) (startsRemark_eq_false (by decide)), ?_⟩⟩
    rcases hc with rfl | rfl <;> rfl

theorem ne_of_class {p : Char → Bool} {d : Char} (hc : p c) (hd : p d = false) : c ≠ d := by
  rintro rfl
  rw [hd] at hc
  cases hc

theorem isBlank_eq_false {p : Char → Bool} (hc : p c) (hspace : p ' ' = false) (htab : p '\t' = false)
    (hreturn : p '\r' = false) : isBlank c = false := by
  simp [isBlank, ne_of_class hc hspace, ne_of_class hc htab, ne_of_class hc hreturn]

theorem isDigit_eq_false_of_isUpper (hc : c.isUpper) : c.isDigit = false := by
  rw [Bool.eq_false_iff]
  intro hd
  obtain ⟨hlo, -⟩ := of_decide_eq_true hc
  have hhi := (Bool.and_eq_true _ _ ▸ hd).2
  have hlo' := UInt32.le_iff_toNat_le.1 hlo
  have hhi' := UInt32.le_iff_toNat_le.1 (of_decide_eq_true hhi)
  exact absurd (Nat.le_trans hlo' hhi') (by decide)

/-- In front of a digit there is nothing to skip. -/
theorem gap_eq_zero_of_isDigit (hc : c.isDigit) : gap false (c :: cs) = 0 := by
  have hupper : c.isUpper = false := by
    rw [Bool.eq_false_iff]
    intro hu
    rw [isDigit_eq_false_of_isUpper hu] at hc
    cases hc
  exact gap_eq_zero (isBlank_eq_false hc (by decide) (by decide) (by decide)) (startsRemark_eq_false hupper)

/-- The lexeme of a text that starts with a capital letter is its first word. -/
theorem lexeme_of_isUpper (hc : c.isUpper) (cs : List Char) :
    lexeme (c :: cs) =
      .ok (.ofWord ((c :: cs).takeWhile Char.isUpper), ((c :: cs).takeWhile Char.isUpper).length) := by
  rw [lexeme, if_neg (ne_of_class hc (by decide)), if_neg (ne_of_class hc (by decide)),
    isDigit_eq_false_of_isUpper hc, if_neg Bool.false_ne_true, if_neg (ne_of_class hc (by decide)), if_pos hc]

/-- A run of capital letters that opens no remark is a word. -/
theorem closed_of_isUpper {t : Tag} {word : List Char} (hne : word ≠ []) (h : word.all Char.isUpper)
    (ht : Tag.ofWord word = t) (heof : t ≠ .eof) (hremark : word ≠ ['R', 'E', 'M']) : Closed (t, word) := by
  obtain ⟨c, cs, rfl⟩ := List.exists_cons_of_ne_nil hne
  have hc : c.isUpper := by
    rw [List.all_cons, Bool.and_eq_true] at h
    exact h.1
  refine ⟨heof, fun d r hd => ?_⟩
  have hrun : ((c :: cs) ++ d :: r).takeWhile Char.isUpper = c :: cs :=
    takeWhile_append_cons h (by rcases hd with rfl | rfl <;> decide)
  rw [List.cons_append] at hrun ⊢
  constructor
  · refine gap_eq_zero (isBlank_eq_false hc (by decide) (by decide) (by decide)) ?_
    rw [startsRemark, hrun]
    exact decide_eq_false hremark
  · rw [lexeme_of_isUpper hc, hrun, ← ht]

theorem closed_keyword (k : Keyword) : (ofTag (.keyword k)).Closed := by
  cases k <;> exact closed_of_isUpper (by decide) (by decide) (by decide) (by decide) (by decide)

theorem closed_builtin (f : Builtin) : (ofTag (.builtin f)).Closed := by
  cases f <;> exact closed_of_isUpper (by decide) (by decide) (by decide) (by decide) (by decide)

theorem closed_ofLetter (v : Letter) : (ofLetter v).Closed := by
  have hv : [v.char].all Char.isUpper ∧ Tag.ofWord [v.char] = .var := by
    revert v
    decide
  exact closed_of_isUpper (by simp) hv.1 hv.2 (by simp) (by simp)

theorem closed_ofNumeral (n : Numeral) : (ofNumeral n).Closed := by
  have hlength : (Nat.toDigits 10 n.val).length ≤ 5 :=
    (Nat.length_toDigits_le_iff (by decide) (by decide)).2 (Nat.lt_of_lt_of_le n.isLt (by decide))
  have hvalue : Decimal.value (Nat.toDigits 10 n.val) = n.val := Nat.ofDigitChars_ten_toDigits
  have hdigits : (Nat.toDigits 10 n.val).all Char.isDigit :=
    List.all_eq_true.2 fun c hc => Nat.isDigit_of_mem_toDigits (by decide) (by decide) hc
  obtain ⟨c, cs, hcs⟩ := List.exists_cons_of_ne_nil (Nat.toDigits_ne_nil (n := n.val) (b := 10))
  rw [ofNumeral, hcs]
  rw [hcs] at hlength hvalue hdigits
  have hc : c.isDigit := by
    rw [List.all_cons, Bool.and_eq_true] at hdigits
    exact hdigits.1
  refine ⟨nofun, fun d r hd => ⟨gap_eq_zero_of_isDigit hc, ?_⟩⟩
  have hrun : ((c :: cs) ++ d :: r).takeWhile Char.isDigit = c :: cs :=
    takeWhile_append_cons hdigits (by rcases hd with rfl | rfl <;> decide)
  rw [List.cons_append] at hrun ⊢
  rw [lexeme, if_neg (ne_of_class hc (by decide)), if_neg (ne_of_class hc (by decide)), if_pos hc, hrun,
    numeral, if_neg, if_pos]
  · rw [hvalue]
    exact Nat.le_of_lt_succ n.isLt
  · rw [maxDigits]
    omega

theorem closed_ofBody (s : Body) : (ofBody s).Closed := by
  refine ⟨nofun, fun d r _ => ⟨gap_eq_zero (by decide) (startsRemark_eq_false (by decide)), ?_⟩⟩
  have hrun : (s.val ++ '"' :: d :: r).takeWhile isStringChar = s.val :=
    takeWhile_append_cons s.property (by decide)
  have hquoted : quoted (s.val ++ '"' :: d :: r) = (.string, s.val.length + 2) := by
    rw [quoted, hrun, List.drop_left]
    rfl
  show lexeme ('"' :: ((s.val ++ ['"']) ++ d :: r)) = .ok (.string, (s.val ++ ['"']).length + 1)
  rw [List.append_assoc, lexeme, if_neg (by decide), if_neg (by decide), if_neg (by decide), if_pos rfl]
  show Except.ok (quoted (s.val ++ '"' :: d :: r)) = _
  rw [hquoted, List.length_append]
  rfl

end Closed

end Lexeme

/-! ### Cutting a text into words -/

/-- The text is made of the words, with blanks between them and nothing after them. -/
inductive Cut : List Char → List Lexeme → Prop
  | nil : Cut [] []
  | blank {r : List Char} {ws : List Lexeme} (h : Cut r ws) : Cut (' ' :: r) ws
  | line {r : List Char} {ws : List Lexeme} (h : Cut r ws) : Cut ('\n' :: r) (.ofTag .eol :: ws)
  | word {w : Lexeme} {c : Char} {r : List Char} {ws : List Lexeme} (hw : w.Closed) (hc : c = ' ' ∨ c = '\n')
      (h : Cut (c :: r) ws) : Cut (w.2 ++ c :: r) (w :: ws)

namespace Scanner

variable {k : Nat} {r source : List Char} {ts : List Token}

theorem Scans.blank (h : Scans ⟨k + 1, r⟩ ts) : Scans ⟨k, ' ' :: r⟩ ts := by
  have hnext : next ⟨k, ' ' :: r⟩ = next ⟨k + 1, r⟩ := by
    have hgap : gap false (' ' :: r) = gap false r + 1 := rfl
    rw [next, next, skip, skip]
    dsimp only
    rw [hgap, List.drop_succ_cons, Nat.add_assoc, Nat.add_comm 1]
  cases h with
  | last h ht => exact .last (hnext.trans h) ht
  | more h ht hts => exact .more (hnext.trans h) ht hts

theorem Scans.word {w : Lexeme} (hgap : gap false (w.2 ++ r) = 0)
    (hw : LineBasic.lexeme (w.2 ++ r) = .ok (w.1, w.2.length)) (heof : w.1 ≠ .eof)
    (h : Scans ⟨k + w.2.length, r⟩ ts) : Scans ⟨k, w.2 ++ r⟩ (⟨w.1, k, k + w.2.length⟩ :: ts) := by
  refine .more (next_eq_ok_iff.2 ⟨w.2.length, ?_, ?_, rfl, ?_⟩) heof h
  · rw [hgap]
    exact hw
  · rw [hgap]
    rfl
  · rw [hgap, Nat.zero_add, List.drop_left]

end Scanner

theorem drop_add_length {source w r : List Char} {k : Nat} (h : source.drop k = w ++ r) :
    source.drop (k + w.length) = r := by
  rw [← List.drop_drop, h, List.drop_left]

/-- The text from a position on is scanned into words. -/
def Scanned (source : List Char) (k : Nat) (ws : List Lexeme) : Prop :=
  ∃ front eof, Scanner.Scans ⟨k, source.drop k⟩ (front ++ [eof]) ∧ lexemesOf source front = ws

theorem Scanned.word {source r : List Char} {k : Nat} {w : Lexeme} {ws : List Lexeme}
    (hk : source.drop k = w.2 ++ r) (hgap : gap false (w.2 ++ r) = 0)
    (hl : lexeme (w.2 ++ r) = .ok (w.1, w.2.length)) (heof : w.1 ≠ .eof)
    (h : Scanned source (k + w.2.length) ws) : Scanned source k (w :: ws) := by
  obtain ⟨front, eof, hscans, rfl⟩ := h
  rw [drop_add_length hk] at hscans
  refine ⟨_ :: front, eof, hk ▸ hscans.word hgap hl heof, ?_⟩
  rw [lexemesOf, List.map_cons, Token.text, hk]
  dsimp only
  rw [Nat.add_sub_cancel_left, List.take_left]
  rfl

namespace Cut

variable {text source : List Char} {ws : List Lexeme}

theorem scanned (h : Cut text ws) {k : Nat} (hk : source.drop k = text) : Scanned source k ws := by
  induction h generalizing k with
  | nil =>
    refine ⟨[], ⟨.eof, k, k⟩, ?_, rfl⟩
    rw [hk]
    have hnext : Scanner.next ⟨k, []⟩ = .ok (⟨.eof, k, k⟩, ⟨k, []⟩) := rfl
    exact .last hnext rfl
  | @blank r ws _ ih =>
    have hr : source.drop (k + 1) = r := drop_add_length (w := [' ']) hk
    obtain ⟨front, eof, hscans, hws⟩ := ih hr
    rw [hr] at hscans
    exact ⟨front, eof, hk ▸ hscans.blank, hws⟩
  | @line r ws _ ih =>
    exact .word (w := .ofTag .eol) hk rfl rfl nofun (ih (drop_add_length (w := ['\n']) hk))
  | @word w c r ws hw hc _ ih =>
    obtain ⟨hgap, hl⟩ := hw.2 c r hc
    exact .word hk hgap hl hw.1 (ih (drop_add_length hk))

/-- The scanner finds the words of a text. -/
theorem exists_scan_eq (h : Cut source ws) :
    ∃ front eof, scan source = .ok (front ++ [eof]) ∧ lexemesOf source front = ws := by
  obtain ⟨front, eof, hscans, hws⟩ := h.scanned (k := 0) rfl
  exact ⟨front, eof, Scanner.tokens_of_scans hscans, hws⟩

end Cut

end LineBasic

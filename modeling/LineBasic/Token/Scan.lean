import LineBasic.Text.Decimal
import LineBasic.Token.Tag

/-!
# Scanning

A source text is a list of characters. Scanning cuts it into tokens; blanks and remarks stand between
tokens and belong to none. A NUL character ends the text.

## Main definitions

* `Token`: a tag and the offsets between which the lexeme stands.
* `gap`: how many characters of blanks and remarks a text starts with.
* `lexeme`: the tag and the length of the lexeme that a text starts with.
* `Scanner.next`: the next token and what follows it.
* `scan`: all tokens of a text, the last of which marks its end.

A scanner's `rest` is the text from `position` on. A lexeme has at least one character unless the text has
ended (`lexeme_length_pos`), so the rest gets shorter with each token (`Scanner.next_rest_length_lt`) and
`Scanner.tokens` ends.
-/

namespace LineBasic

/-- A lexeme of a source text: its kind and the offsets of its first character and of the one after its
last. -/
structure Token where
  tag : Tag
  start : Nat
  stop : Nat
  deriving DecidableEq, Repr

namespace Token

/-- The characters of a token. -/
def text (source : List Char) (t : Token) : List Char :=
  (source.drop t.start).take (t.stop - t.start)

end Token

/-- Why a text cannot be scanned. -/
inductive ScanError where
  /-- A run of digits has more than `maxDigits` digits. -/
  | numeralTooLong
  deriving DecidableEq, Repr

/-- The most digits that a numeral may have, leading zeros included. -/
def maxDigits : Nat := 4300

/-- The largest number that can be written in a program. -/
def maxLiteral : Nat := 32767

/-- The blanks that may stand between tokens. A line end is a token of its own. -/
def isBlank (c : Char) : Bool := c = ' ' || c = '\t' || c = '\r'

/-- The characters that may stand between the quotes of a string. -/
def isStringChar (c : Char) : Bool := c = ' ' || c = '!' || ('#' ≤ c && c ≤ 'z')

/-- Whether a text starts with the word that opens a remark. -/
def startsRemark (cs : List Char) : Bool :=
  cs.takeWhile Char.isUpper = ['R', 'E', 'M']

/-- The number of characters of blanks and remarks that a text starts with. A remark takes the line end
that closes it along. The flag says whether the text starts inside a remark. -/
def gap : Bool → List Char → Nat
  | _, [] => 0
  | true, c :: cs =>
    if c = '\n' then gap false cs + 1
    else if c = '\x00' then 0
    else gap true cs + 1
  | false, c :: cs =>
    if isBlank c then gap false cs + 1
    else if startsRemark (c :: cs) then gap true cs + 1
    else 0

/-- The lexeme of a run of digits. -/
def numeral (digits : List Char) : Except ScanError (Tag × Nat) :=
  if maxDigits < digits.length then .error .numeralTooLong
  else if Decimal.value digits ≤ maxLiteral then .ok (.number, digits.length)
  else .ok (.invalid, digits.length)

/-- The lexeme of a string, given what follows its opening quote. It ends in front of the first character
that a string cannot hold; only if that is a quote is the string sound, and the quote belongs to it. -/
def quoted (cs : List Char) : Tag × Nat :=
  let body := cs.takeWhile isStringChar
  match cs.drop body.length with
  | '"' :: _ => (.string, body.length + 2)
  | _ => (.invalid, body.length + 1)

/-- The lexeme of an operator or of a punctuation mark. Not equal has two spellings. -/
def symbol : List Char → Tag × Nat
  | '<' :: '=' :: _ => (.comparison .le, 2)
  | '<' :: '>' :: _ => (.comparison .ne, 2)
  | '<' :: _ => (.comparison .lt, 1)
  | '>' :: '=' :: _ => (.comparison .ge, 2)
  | '>' :: '<' :: _ => (.comparison .ne, 2)
  | '>' :: _ => (.comparison .gt, 1)
  | c :: _ => (.ofSymbol c, 1)
  | [] => (.invalid, 1)

/-- The tag and the length of the lexeme that a text starts with; the end of the text has length zero. -/
def lexeme : List Char → Except ScanError (Tag × Nat)
  | [] => .ok (.eof, 0)
  | c :: cs =>
    if c = '\x00' then .ok (.eof, 0)
    else if c = '\n' then .ok (.eol, 1)
    else if c.isDigit then numeral ((c :: cs).takeWhile Char.isDigit)
    else if c = '"' then .ok (quoted cs)
    else if c.isUpper then
      let word := (c :: cs).takeWhile Char.isUpper
      .ok (.ofWord word, word.length)
    else .ok (symbol (c :: cs))

/-- A place in a source text: what is left of it, and how much stands before. -/
structure Scanner where
  position : Nat
  rest : List Char
  deriving DecidableEq, Repr

namespace Scanner

/-- The start of a text. -/
def start (source : List Char) : Scanner := ⟨0, source⟩

/-- The place `n` characters further on. -/
def skip (s : Scanner) (n : Nat) : Scanner := ⟨s.position + n, s.rest.drop n⟩

/-- The next token, and the place behind it. At the end of the text the place stays where it is. -/
def next (s : Scanner) : Except ScanError (Token × Scanner) :=
  let first := s.skip (gap false s.rest)
  (lexeme first.rest).map fun (tag, length) =>
    (⟨tag, first.position, first.position + length⟩, first.skip length)

end Scanner

theorem symbol_length_pos (cs : List Char) : 0 < (symbol cs).2 := by
  unfold symbol
  split <;> exact Nat.succ_pos _

theorem quoted_length_pos (cs : List Char) : 0 < (quoted cs).2 := by
  unfold quoted
  dsimp only
  split <;> exact Nat.succ_pos _

theorem numeral_length {digits : List Char} {tag : Tag} {n : Nat}
    (h : numeral digits = .ok (tag, n)) : n = digits.length := by
  unfold numeral at h
  split at h
  · cases h
  · split at h <;> (cases h; rfl)

theorem takeWhile_cons_length_pos {p : Char → Bool} {c : Char} (h : p c = true) (cs : List Char) :
    0 < ((c :: cs).takeWhile p).length := by
  simp [h]

/-- A lexeme is empty only at the end of the text. -/
theorem lexeme_length_pos {cs : List Char} {tag : Tag} {n : Nat}
    (h : lexeme cs = .ok (tag, n)) (ht : tag ≠ .eof) : 0 < n := by
  cases cs with
  | nil => cases h; exact absurd rfl ht
  | cons c cs =>
    simp only [lexeme] at h
    split at h
    · cases h; exact absurd rfl ht
    split at h
    · cases h; exact Nat.one_pos
    split at h
    · rename_i hdigit
      rw [numeral_length h]
      exact takeWhile_cons_length_pos hdigit cs
    split at h
    · have hpos := quoted_length_pos cs
      rw [Except.ok.inj h] at hpos
      exact hpos
    split at h
    · rename_i hupper
      cases h
      exact takeWhile_cons_length_pos hupper cs
    · have hpos := symbol_length_pos (c :: cs)
      rw [Except.ok.inj h] at hpos
      exact hpos

/-- At the end of a text only the tag for it is found. -/
theorem lexeme_nil : lexeme [] = .ok (.eof, 0) := rfl

namespace Scanner

/-- Each token but the last one leaves less text behind it. -/
theorem next_rest_length_lt {s s' : Scanner} {t : Token} (h : s.next = .ok (t, s'))
    (ht : t.tag ≠ .eof) : s'.rest.length < s.rest.length := by
  unfold next at h
  dsimp only at h
  cases hl : lexeme (s.skip (gap false s.rest)).rest with
  | error e => rw [hl] at h; cases h
  | ok r =>
    obtain ⟨tag, n⟩ := r
    rw [hl] at h
    simp only [Except.map, Except.ok.injEq, Prod.mk.injEq] at h
    obtain ⟨rfl, rfl⟩ := h
    have hpos := lexeme_length_pos hl ht
    have hne : (s.skip (gap false s.rest)).rest ≠ [] := by
      intro hnil
      rw [hnil, lexeme_nil] at hl
      simp at hl
      omega
    have hlen : 0 < (s.skip (gap false s.rest)).rest.length := List.length_pos_iff.2 hne
    simp only [skip, List.length_drop] at hlen ⊢
    omega

/-- The tokens from a place on, up to and including the end of the text. -/
def tokens (s : Scanner) : Except ScanError (List Token) :=
  match _h : s.next with
  | .error e => .error e
  | .ok (t, s') => if _ht : t.tag = .eof then .ok [t] else s'.tokens.map (t :: ·)
termination_by s.rest.length
decreasing_by exact next_rest_length_lt _h _ht

end Scanner

/-- All tokens of a source text. -/
def scan (source : List Char) : Except ScanError (List Token) := (Scanner.start source).tokens

end LineBasic

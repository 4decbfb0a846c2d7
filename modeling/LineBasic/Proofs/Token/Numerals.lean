import LineBasic.Proofs.Token.Scanned

/-!
# Runs of digits

The only thing that a text can hold and that is not cut into tokens is a run of more than `maxDigits` digits at which
a token starts. Any shorter run of digits is a token: a number if it is small enough, and invalid otherwise.

## Main definitions

* `Scanner.Reaches`: the places at which a scanner looks for tokens.
* `Scanner.digits`: the digits at the start of the next token.

## Main results

* `Scanner.exists_tokens_iff`: which texts can be scanned.
* `Scanner.Scans.exists_numeral`: what becomes of a run of digits.
-/

namespace LineBasic

section Lexeme

variable {cs : List Char} {e : ScanError}

/-- A text that starts with digits starts with a numeral. -/
theorem lexeme_of_digits (h : cs.takeWhile Char.isDigit ≠ []) : lexeme cs = numeral (cs.takeWhile Char.isDigit) := by
  cases cs with
  | nil => exact absurd rfl h
  | cons c cs =>
    have hc : c.isDigit := Decidable.byContradiction fun hc => h (List.takeWhile_cons_of_neg hc)
    have hnul : c ≠ '\x00' := by
      rintro rfl
      cases hc
    have hend : c ≠ '\n' := by
      rintro rfl
      cases hc
    rw [lexeme, if_neg hnul, if_neg hend, if_pos hc]

/-- A text that starts with no digit starts with a lexeme. -/
theorem exists_lexeme_of_no_digits (h : cs.takeWhile Char.isDigit = []) : ∃ r, lexeme cs = .ok r := by
  cases cs with
  | nil => exact ⟨_, rfl⟩
  | cons c cs =>
    have hc : ¬c.isDigit := fun hc => by simp [hc] at h
    rw [lexeme, if_neg hc]
    dsimp only
    split
    · exact ⟨_, rfl⟩
    split
    · exact ⟨_, rfl⟩
    split
    · exact ⟨_, rfl⟩
    split
    · exact ⟨_, rfl⟩
    · exact ⟨_, rfl⟩

theorem numeral_eq_error_iff {digits : List Char} : numeral digits = .error e ↔ maxDigits < digits.length := by
  unfold numeral
  cases e
  by_cases h : maxDigits < digits.length
  · simp [h]
  · simp only [h, if_false, iff_false]
    split
    · exact nofun
    · exact nofun

theorem tag_of_numeral {digits : List Char} {tag : Tag} {n : Nat} (h : numeral digits = .ok (tag, n)) :
    tag = if Decimal.value digits ≤ maxLiteral then .number else .invalid := by
  unfold numeral at h
  split at h
  · cases h
  · split
    · rw [if_pos ‹_›] at h
      cases h
      rfl
    · rw [if_neg ‹_›] at h
      cases h
      rfl

/-- The lexemes that are none are the numerals with too many digits. -/
theorem lexeme_eq_error_iff : lexeme cs = .error e ↔ maxDigits < (cs.takeWhile Char.isDigit).length := by
  by_cases h : cs.takeWhile Char.isDigit = []
  · obtain ⟨r, hr⟩ := exists_lexeme_of_no_digits h
    simp [hr, h]
  · rw [lexeme_of_digits h, numeral_eq_error_iff]

end Lexeme

namespace Scanner

variable {s s' s'' : Scanner} {t : Token} {ts : List Token} {e : ScanError}

/-- The places at which a scanner looks for a token, the one that it starts from included. -/
inductive Reaches : Scanner → Scanner → Prop
  | here {s : Scanner} : Reaches s s
  | next {s s' s'' : Scanner} {t : Token} (h : s.next = .ok (t, s')) (ht : t.tag ≠ .eof) (hs : Reaches s' s'') :
      Reaches s s''

/-- The digits at the start of the next token. -/
def digits (s : Scanner) : List Char := (s.rest.drop (gap false s.rest)).takeWhile Char.isDigit

theorem next_eq_error_iff : s.next = .error e ↔ maxDigits < s.digits.length := by
  rw [digits, ← lexeme_eq_error_iff (e := e)]
  simp only [next, skip]
  cases lexeme (s.rest.drop (gap false s.rest)) with
  | error e' => simp [Except.map]
  | ok r => simp [Except.map]

/-- A text is cut into tokens unless a token starts at too many digits. -/
theorem exists_tokens_iff : (∃ ts, s.tokens = .ok ts) ↔ ∀ s', s.Reaches s' → s'.digits.length ≤ maxDigits := by
  constructor
  · rintro ⟨ts, hts⟩ s' hs'
    replace hts := scans_of_tokens hts
    refine Nat.not_lt.1 fun hlong => ?_
    replace hlong := next_eq_error_iff (e := .numeralTooLong).2 hlong
    -- A scanner goes on in one way only, so the text has been cut on the way to this state.
    induction hs' generalizing ts with
    | here => cases hts with
      | last h ht => rw [h] at hlong; cases hlong
      | more h ht hts => rw [h] at hlong; cases hlong
    | next h ht _ ih => cases hts with
      | last h' ht' =>
        rw [h] at h'
        cases h'
        exact ht ht'
      | more h' ht' hts =>
        rw [h] at h'
        cases h'
        exact ih _ hts hlong
  · intro hs
    fun_induction tokens s with
    | case1 s e hnext => exact absurd (next_eq_error_iff.1 hnext) (Nat.not_lt.2 (hs s .here))
    | case2 s t s' hnext ht => exact ⟨_, rfl⟩
    | case3 s t s' hnext ht ih =>
      obtain ⟨ts, hts⟩ := ih fun s'' hs'' => hs s'' (.next hnext ht hs'')
      exact ⟨t :: ts, by rw [hts]; rfl⟩

/-- A text in which a token starts at too many digits is not cut into tokens. -/
theorem tokens_eq_error_iff : s.tokens = .error e ↔ ∃ s', s.Reaches s' ∧ maxDigits < s'.digits.length := by
  have hfails := not_congr (exists_tokens_iff (s := s))
  simp only [Classical.not_forall, Nat.not_le, exists_prop] at hfails
  rw [← hfails]
  cases e
  cases s.tokens with
  | ok ts => simp
  | error e =>
    cases e
    simp

theorem rest_of_next {source : List Char} (h : s.next = .ok (t, s')) (hs : s.rest = source.drop s.position) :
    s'.rest = source.drop s'.position := by
  obtain ⟨n, -, hstart, hstop, rfl⟩ := next_eq_ok_iff.1 h
  dsimp only
  rw [hs, List.drop_drop, ← hs, ← Nat.add_assoc, ← hstart, ← hstop]

/-- Each place that a scanner reaches is a place in the text. -/
theorem Reaches.rest {source : List Char} (h : s.Reaches s') (hs : s.rest = source.drop s.position) :
    s'.rest = source.drop s'.position := by
  induction h with
  | here => exact hs
  | next h _ _ ih => exact ih (rest_of_next h hs)

/-- At each place that a scanner reaches there is a token. -/
theorem Scans.mem_of_reaches (hts : s.Scans ts) (h : s.Reaches s') : ∃ t ∈ ts, ∃ s'', s'.next = .ok (t, s'') := by
  induction h generalizing ts with
  | here => cases hts with
    | last h ht => exact ⟨_, List.mem_singleton_self _, _, h⟩
    | more h ht hts => exact ⟨_, List.mem_cons_self, _, h⟩
  | next h ht _ ih => cases hts with
    | last h' ht' =>
      rw [h] at h'
      cases h'
      exact absurd ht' ht
    | more h' ht' hts =>
      rw [h] at h'
      cases h'
      obtain ⟨t, ht, s'', h''⟩ := ih hts
      exact ⟨t, List.mem_cons_of_mem _ ht, s'', h''⟩

/-- A run of digits at which a token starts is that token, and its value decides about the tag. -/
theorem Scans.exists_numeral {source : List Char} (hts : s.Scans ts) (hs : s.rest = source.drop s.position)
    (h : s.Reaches s') (hd : s'.digits ≠ []) :
    ∃ t ∈ ts, t.start = s'.position + gap false s'.rest ∧ t.stop = t.start + s'.digits.length ∧
      t.text source = s'.digits ∧
      t.tag = if Decimal.value s'.digits ≤ maxLiteral then .number else .invalid := by
  obtain ⟨t, ht, s'', hnext⟩ := hts.mem_of_reaches h
  obtain ⟨n, hl, hstart, hstop, -⟩ := next_eq_ok_iff.1 hnext
  replace hl : numeral s'.digits = .ok (t.tag, n) := lexeme_of_digits hd ▸ hl
  have hn : n = s'.digits.length := numeral_length hl
  refine ⟨t, ht, hstart, hn ▸ hstop, ?_, tag_of_numeral hl⟩
  rw [Token.text, hstart, ← List.drop_drop, ← h.rest hs, ← hstart, hstop, Nat.add_sub_cancel_left, hn]
  exact take_length_takeWhile _ _

end Scanner

end LineBasic

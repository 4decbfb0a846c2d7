import LineBasic.Program.Basic

/-!
# Scanned tokens

What the tokens of a text are: they come one after the other, the last one is the only end of the text, and each
is the lexeme that stands where it starts. The text of a literal is therefore what its tag promises.

## Main definitions

* `Scanner.Scans`: the tokens from a place on.

## Main results

* `Scanner.tokens_eq_ok_iff`: the scanner finds these tokens and no others.
* `lexeme_of_mem_scan`: a token is the lexeme at its start.
* `take_of_lexeme_number`, `take_of_lexeme_var`, `take_of_lexeme_string`: the texts of literals.
-/

namespace LineBasic

namespace Scanner

/-- The tokens from a place on. -/
inductive Scans : Scanner → List Token → Prop
  | last {s s' : Scanner} {t : Token} (h : s.next = .ok (t, s')) (ht : t.tag = .eof) : Scans s [t]
  | more {s s' : Scanner} {t : Token} {ts : List Token} (h : s.next = .ok (t, s')) (ht : t.tag ≠ .eof)
      (hts : Scans s' ts) : Scans s (t :: ts)

variable {s s' : Scanner} {t : Token} {ts : List Token}

theorem tokens_of_scans (h : s.Scans ts) : s.tokens = .ok ts := by
  induction h with
  | last h ht =>
    rw [tokens]
    split
    · simp_all
    · simp_all
  | more h ht _ ih =>
    rw [tokens]
    split
    · simp_all
    · simp_all [Except.map]

theorem scans_of_tokens (h : s.tokens = .ok ts) : s.Scans ts := by
  fun_induction tokens s generalizing ts with
  | case1 s e hnext => cases h
  | case2 s t s' hnext ht =>
    cases h
    exact .last hnext ht
  | case3 s t s' hnext ht ih =>
    cases hrest : s'.tokens with
    | error e =>
      rw [hrest] at h
      cases h
    | ok ts' =>
      rw [hrest] at h
      cases h
      exact .more hnext ht (ih hrest)

theorem tokens_eq_ok_iff : s.tokens = .ok ts ↔ s.Scans ts := ⟨scans_of_tokens, tokens_of_scans⟩

/-- A token stands behind the blanks and remarks, and the scanner goes on behind it. -/
theorem next_eq_ok_iff : s.next = .ok (t, s') ↔
    ∃ n, lexeme (s.rest.drop (gap false s.rest)) = .ok (t.tag, n) ∧ t.start = s.position + gap false s.rest ∧
      t.stop = t.start + n ∧ s' = ⟨t.stop, s.rest.drop (gap false s.rest + n)⟩ := by
  obtain ⟨tag, start, stop⟩ := t
  simp only [next, skip]
  cases hl : lexeme (s.rest.drop (gap false s.rest)) with
  | error e => simp [Except.map]
  | ok r =>
    obtain ⟨tag', n⟩ := r
    simp only [Except.map, Except.ok.injEq, Prod.mk.injEq, Token.mk.injEq, List.drop_drop]
    constructor
    · rintro ⟨⟨rfl, rfl, rfl⟩, rfl⟩
      exact ⟨n, ⟨rfl, rfl⟩, rfl, rfl, rfl⟩
    · rintro ⟨n', ⟨rfl, rfl⟩, rfl, rfl, rfl⟩
      exact ⟨⟨rfl, rfl, rfl⟩, rfl⟩

/-- The end of the text is the last token, and no other token has its tag. -/
theorem Scans.eof (h : s.Scans ts) : ∃ ts' t, ts = ts' ++ [t] ∧ t.tag = .eof ∧ ∀ u ∈ ts', u.tag ≠ .eof := by
  induction h with
  | @last s s' t h ht => exact ⟨[], t, rfl, ht, by simp⟩
  | @more s s' t ts h ht _ ih =>
    obtain ⟨ts', t', rfl, ht', hts'⟩ := ih
    exact ⟨t :: ts', t', rfl, ht', List.forall_mem_cons.2 ⟨ht, hts'⟩⟩

/-- In a text, each token is the lexeme at its start. -/
theorem Scans.lexeme {source : List Char} (h : s.Scans ts) (hs : s.rest = source.drop s.position) :
    ∀ t ∈ ts, t.start ≤ t.stop ∧ LineBasic.lexeme (source.drop t.start) = .ok (t.tag, t.stop - t.start) := by
  have first : ∀ {s s' : Scanner} {t : Token}, s.next = .ok (t, s') → s.rest = source.drop s.position →
      (t.start ≤ t.stop ∧ LineBasic.lexeme (source.drop t.start) = .ok (t.tag, t.stop - t.start)) ∧
        s'.rest = source.drop s'.position := by
    intro s s' t h hs
    obtain ⟨n, hl, hstart, hstop, rfl⟩ := next_eq_ok_iff.1 h
    rw [hs, List.drop_drop, ← hs, ← hstart] at hl
    refine ⟨⟨by omega, ?_⟩, ?_⟩
    · rw [hl, hstop, Nat.add_sub_cancel_left]
    · dsimp only
      rw [hs, List.drop_drop, ← hs, ← Nat.add_assoc, ← hstart, ← hstop]
  induction h with
  | last h ht => exact fun u hu => List.mem_singleton.1 hu ▸ (first h hs).1
  | more h ht _ ih => exact List.forall_mem_cons.2 ⟨(first h hs).1, ih (first h hs).2⟩

end Scanner

theorem lexeme_of_mem_scan {source : List Char} {tokens : List Token} (h : scan source = .ok tokens)
    {t : Token} (ht : t ∈ tokens) :
    t.start ≤ t.stop ∧ lexeme (source.drop t.start) = .ok (t.tag, t.stop - t.start) :=
  (Scanner.scans_of_tokens h).lexeme rfl t ht

section Lexemes

variable {cs : List Char} {tag : Tag} {n : Nat}

theorem take_length_takeWhile (p : Char → Bool) (cs : List Char) :
    cs.take (cs.takeWhile p).length = cs.takeWhile p :=
  (List.prefix_iff_eq_take.1 (List.takeWhile_prefix p)).symm

/-- How a lexeme comes about. -/
theorem lexeme_cases (h : lexeme cs = .ok (tag, n)) :
    tag = .eof ∨ tag = .eol ∨ (∃ c cs', cs = c :: cs' ∧ c.isDigit ∧ numeral (cs.takeWhile Char.isDigit) = .ok (tag, n)) ∨
      (∃ cs', cs = '"' :: cs' ∧ quoted cs' = (tag, n)) ∨
      (∃ c cs', cs = c :: cs' ∧ c.isUpper ∧ tag = .ofWord (cs.takeWhile Char.isUpper) ∧
        n = (cs.takeWhile Char.isUpper).length) ∨ symbol cs = (tag, n) := by
  cases cs with
  | nil =>
    cases h
    exact .inl rfl
  | cons c cs =>
    simp only [lexeme] at h
    split at h
    · cases h
      exact .inl rfl
    split at h
    · cases h
      exact .inr (.inl rfl)
    split at h
    · exact .inr (.inr (.inl ⟨c, cs, rfl, ‹_›, h⟩))
    split at h
    · rename_i hc
      subst hc
      exact .inr (.inr (.inr (.inl ⟨cs, rfl, Except.ok.inj h⟩)))
    split at h
    · cases h
      exact .inr (.inr (.inr (.inr (.inl ⟨c, cs, rfl, ‹_›, rfl, rfl⟩))))
    · exact .inr (.inr (.inr (.inr (.inr (Except.ok.inj h)))))

theorem symbol_ne_literal (cs : List Char) :
    (symbol cs).1 ≠ .number ∧ (symbol cs).1 ≠ .string ∧ (symbol cs).1 ≠ .var := by
  unfold symbol
  split <;> try simp
  unfold Tag.ofSymbol
  split <;> simp

theorem ofWord_ne_literal (word : List Char) : Tag.ofWord word ≠ .number ∧ Tag.ofWord word ≠ .string := by
  unfold Tag.ofWord
  split
  · simp
  · split
    · simp
    · split <;> simp

theorem length_of_ofWord_eq_var {word : List Char} (h : Tag.ofWord word = .var) : word.length = 1 := by
  unfold Tag.ofWord at h
  split at h
  · cases h
  · split at h
    · cases h
    · split at h
      · assumption
      · cases h

theorem quoted_ne_literal (cs : List Char) : (quoted cs).1 ≠ .number ∧ (quoted cs).1 ≠ .var := by
  simp only [quoted]
  split <;> simp

theorem numeral_ne_literal (h : numeral cs = .ok (tag, n)) : tag ≠ .string ∧ tag ≠ .var := by
  unfold numeral at h
  split at h
  · cases h
  · split at h <;> (cases h; simp)

/-- The digits of a number are all that there are, and they denote a number that can be written. -/
theorem take_of_lexeme_number (h : lexeme cs = .ok (.number, n)) :
    cs.take n ≠ [] ∧ (cs.take n).all Char.isDigit ∧ Decimal.value (cs.take n) ≤ maxLiteral := by
  rcases lexeme_cases h with ht | ht | ⟨c, cs', rfl, hc, hd⟩ | ⟨cs', rfl, hq⟩ | ⟨c, cs', rfl, hc, hw, -⟩ | hs
  · cases ht
  · cases ht
  · have hn := numeral_length hd
    unfold numeral at hd
    split at hd
    · cases hd
    · split at hd
      · rw [hn, take_length_takeWhile]
        exact ⟨by simp [hc], List.all_takeWhile, ‹_›⟩
      · cases hd
  · exact absurd (by rw [hq]) (quoted_ne_literal cs').1
  · exact absurd hw.symm (ofWord_ne_literal _).1
  · exact absurd (by rw [hs]) (symbol_ne_literal cs).1

/-- A variable is a single capital letter. -/
theorem take_of_lexeme_var (h : lexeme cs = .ok (.var, n)) : ∃ c, cs.take n = [c] ∧ c.isUpper := by
  rcases lexeme_cases h with ht | ht | ⟨c, cs', rfl, hc, hd⟩ | ⟨cs', rfl, hq⟩ | ⟨c, cs', rfl, hc, hw, hn⟩ | hs
  · cases ht
  · cases ht
  · exact absurd rfl (numeral_ne_literal hd).2
  · exact absurd (by rw [hq]) (quoted_ne_literal cs').2
  · rw [hn, length_of_ofWord_eq_var hw.symm]
    exact ⟨c, rfl, hc⟩
  · exact absurd (by rw [hs]) (symbol_ne_literal cs).2.2

/-- A string stands between two quotes. -/
theorem take_of_lexeme_string (h : lexeme cs = .ok (.string, n)) :
    ∃ body, cs.take n = '"' :: (body ++ ['"']) ∧ body.all isStringChar := by
  rcases lexeme_cases h with ht | ht | ⟨c, cs', rfl, hc, hd⟩ | ⟨cs', rfl, hq⟩ | ⟨c, cs', rfl, hc, hw, -⟩ | hs
  · cases ht
  · cases ht
  · exact absurd rfl (numeral_ne_literal hd).1
  · unfold quoted at hq
    dsimp only at hq
    split at hq
    · rename_i rest hrest
      cases hq
      refine ⟨cs'.takeWhile isStringChar, ?_, List.all_takeWhile⟩
      rw [List.take_succ_cons, List.take_add, take_length_takeWhile, hrest]
      rfl
    · cases hq
  · exact absurd hw.symm (ofWord_ne_literal _).2
  · exact absurd (by rw [hs]) (symbol_ne_literal cs).2.1

end Lexemes

end LineBasic

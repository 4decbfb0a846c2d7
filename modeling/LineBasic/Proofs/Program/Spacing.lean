import LineBasic.Proofs.Program.Words

/-!
# Spacing

Blanks and remarks may be put in front of a text and behind each of its tokens. They are passed over, and no token
reaches into them, so the words of the text stay the same.

## Main definitions

* `Passes`: characters that are passed over whatever stands behind them.
* `Succeeds`: what may stand behind a token instead of what stood there.
* `Words`: the words of a text.
* `Spacing`: what may be put between tokens.
* `insertAt`: a text with something put at a position.
* `Inserted`: a text with something put in front of it or behind one of its tokens.

## Main results

* `words_iff_scan`: the words of a text are those of its tokens.
* `lexeme_append`: a token does not depend on what follows it.
* `exists_scan_insert`: the words of a text stay the same when something is put between them.
-/

namespace LineBasic

/-! ### What is passed over -/

/-- The characters are passed over whatever stands behind them. The flag says whether they start inside a remark. -/
def Passes (inRemark : Bool) (g : List Char) : Prop :=
  ∀ r, gap inRemark (g ++ r) = g.length + gap false r

section Gap

variable {c : Char} {cs g : List Char}

theorem gap_blank (hc : isBlank c) (cs : List Char) : gap false (c :: cs) = gap false cs + 1 := by
  rw [gap, if_pos hc]

theorem gap_remark_cons (hline : c ≠ '\n') (hend : c ≠ '\x00') (cs : List Char) :
    gap true (c :: cs) = gap true cs + 1 := by
  rw [gap, if_neg hline, if_neg hend]

theorem passes_nil : Passes false [] := fun r => by simp

theorem Passes.blank (hc : isBlank c) (h : Passes false g) : Passes false (c :: g) := fun r => by
  rw [List.cons_append, gap_blank hc, h r, List.length_cons]
  omega

theorem passes_of_blanks (h : g.all isBlank) : Passes false g := by
  induction g with
  | nil => exact passes_nil
  | cons c g ih =>
    rw [List.all_cons, Bool.and_eq_true] at h
    exact (ih h.2).blank h.1

theorem passes_remark {text : List Char} (h : ∀ c ∈ text, c ≠ '\n' ∧ c ≠ '\x00') :
    Passes true (text ++ ['\n']) := by
  induction text with
  | nil =>
    intro r
    show gap false r + 1 = 1 + gap false r
    omega
  | cons c text ih =>
    obtain ⟨⟨hline, hend⟩, htext⟩ := List.forall_mem_cons.1 h
    intro r
    rw [List.cons_append, List.cons_append, gap_remark_cons hline hend, ih htext r, List.length_cons]
    omega

/-- What opens a remark is the word REM, and no capital letter stands behind it. -/
theorem startsRemark_iff : startsRemark cs ↔ ∃ r, cs = 'R' :: 'E' :: 'M' :: r ∧ r.takeWhile Char.isUpper = [] := by
  rw [startsRemark, decide_eq_true_eq]
  constructor
  · intro h
    have hcs := List.takeWhile_append_dropWhile (p := Char.isUpper) (l := cs)
    rw [h] at hcs
    refine ⟨cs.dropWhile Char.isUpper, hcs.symm, ?_⟩
    rw [← hcs] at h
    simpa using h
  · rintro ⟨r, rfl, hr⟩
    simp [hr, show 'R'.isUpper from by decide, show 'E'.isUpper from by decide, show 'M'.isUpper from by decide]

/-- What a text with a token starts with is passed over whatever stands behind it. -/
theorem passes_take_gap {d : Char} {r : List Char} (inRemark : Bool) (h : cs.drop (gap inRemark cs) = d :: r)
    (hd : d ≠ '\x00') : Passes inRemark (cs.take (gap inRemark cs)) := by
  fun_induction gap inRemark cs with
  | case1 => simp at h
  | case2 cs ih =>
    intro r'
    have := ih h r'
    rw [List.take_succ_cons, List.cons_append, gap, if_pos rfl, this, List.length_cons]
    omega
  | case3 cs => exact absurd (List.cons.inj h).1.symm hd
  | case4 c cs hline hend ih =>
    intro r'
    have := ih h r'
    rw [List.take_succ_cons, List.cons_append, gap_remark_cons hline hend, this, List.length_cons]
    omega
  | case5 c cs hc ih => exact (ih h).blank hc
  | case6 c cs hc hremark ih =>
    -- The remark is closed, so the character behind its first word is passed over, too.
    obtain ⟨rest, hcs, hrest⟩ := startsRemark_iff.1 hremark
    obtain ⟨rfl, rfl⟩ := List.cons.inj hcs
    have hword : gap true ('E' :: 'M' :: rest) = gap true rest + 1 + 1 := rfl
    rw [hword] at h ih ⊢
    cases rest with
    | nil => simp [gap] at h
    | cons e rest =>
      have hupper : e.isUpper = false := by simpa [List.takeWhile_cons] using hrest
      have hend : e ≠ '\x00' := by
        rintro rfl
        exact hd (List.cons.inj h).1.symm
      obtain ⟨m, hm⟩ : ∃ m, gap true (e :: rest) = m + 1 := by
        rw [gap]
        split
        · exact ⟨_, rfl⟩
        · exact ⟨_, rfl⟩
      intro r'
      have hpassed := ih h r'
      rw [hm] at hpassed ⊢
      simp only [List.take_succ_cons, List.cons_append, List.length_cons] at hpassed ⊢
      rw [gap, if_neg (by decide), if_pos (startsRemark_iff.2 ⟨_, rfl, ?_⟩), hpassed]
      · omega
      · rw [List.takeWhile_cons, hupper]
        rfl
  | case7 c cs hc hremark => exact passes_nil

theorem gap_drop_gap (inRemark : Bool) (cs : List Char) : gap false (cs.drop (gap inRemark cs)) = 0 := by
  fun_induction gap inRemark cs with
  | case1 => simp [gap]
  | case2 cs ih => exact ih
  | case3 cs => exact Lexeme.gap_eq_zero (by decide) (Lexeme.startsRemark_eq_false (by decide))
  | case4 c cs _ _ ih => exact ih
  | case5 c cs _ ih => exact ih
  | case6 c cs _ _ ih => exact ih
  | case7 c cs hc hremark => exact Lexeme.gap_eq_zero (by simpa using hc) (by simpa using hremark)

end Gap

/-! ### A token does not depend on what follows it -/

/-- What may stand behind a token instead of what stood there: something that starts with the same character, or with
a blank. -/
def Succeeds (r r' : List Char) : Prop := r'.head? = r.head? ∨ ∃ c ∈ r'.head?, isBlank c

section Lexeme

variable {c : Char} {cs w r r' : List Char} {tag : Tag} {n : Nat} {p : Char → Bool}

theorem takeWhile_eq_of_length (h : ((w ++ r).takeWhile p).length = w.length) : (w ++ r).takeWhile p = w := by
  rw [← take_length_takeWhile p (w ++ r), h, List.take_left]

theorem Succeeds.takeWhile_eq_nil (h : Succeeds r r') (hblank : ∀ c, isBlank c → p c = false)
    (hr : r.takeWhile p = []) : r'.takeWhile p = [] := by
  cases r' with
  | nil => rfl
  | cons c' r' =>
    have hc : p c' = false := by
      rcases h with h | ⟨c, hc, hc'⟩
      · cases r with
        | nil => cases h
        | cons c r =>
          cases h
          simpa [List.takeWhile_cons] using hr
      · cases hc
        exact hblank _ hc'
    rw [List.takeWhile_cons, hc]
    rfl

/-- A run of characters ends where it ended. -/
theorem takeWhile_append (h : Succeeds r r') (hblank : ∀ c, isBlank c → p c = false)
    (hw : (w ++ r).takeWhile p = w) : (w ++ r').takeWhile p = w := by
  have hall : ∀ c ∈ w, p c := by
    have hrun : ((w ++ r).takeWhile p).all p := List.all_takeWhile
    rw [hw] at hrun
    exact List.all_eq_true.1 hrun
  rw [List.takeWhile_append_of_pos hall, List.append_right_eq_self] at hw ⊢
  exact h.takeWhile_eq_nil hblank hw

theorem isUpper_eq_false_of_isBlank (c : Char) (hc : isBlank c) : c.isUpper = false := by
  simp only [isBlank, Bool.or_eq_true, decide_eq_true_eq] at hc
  rcases hc with (rfl | rfl) | rfl <;> decide

theorem isDigit_eq_false_of_isBlank (c : Char) (hc : isBlank c) : c.isDigit = false := by
  simp only [isBlank, Bool.or_eq_true, decide_eq_true_eq] at hc
  rcases hc with (rfl | rfl) | rfl <;> decide

theorem numeral_append (h : Succeeds r r') (hw : numeral ((w ++ r).takeWhile Char.isDigit) = .ok (tag, w.length)) :
    numeral ((w ++ r').takeWhile Char.isDigit) = .ok (tag, w.length) := by
  have hrun := takeWhile_eq_of_length (numeral_length hw).symm
  rw [takeWhile_append h isDigit_eq_false_of_isBlank hrun, ← hw, hrun]

theorem quoted_append (hw : quoted (w ++ r) = (tag, w.length + 1)) (htag : tag ≠ .invalid) :
    quoted (w ++ r') = (tag, w.length + 1) := by
  have hsplit := List.take_append_drop ((w ++ r).takeWhile isStringChar).length (w ++ r)
  have hall : ((w ++ r).takeWhile isStringChar).all isStringChar := List.all_takeWhile
  rw [take_length_takeWhile] at hsplit
  simp only [quoted] at hw
  split at hw
  · rename_i rest hrest
    obtain ⟨rfl, hlength⟩ := Prod.mk.inj hw
    generalize (w ++ r).takeWhile isStringChar = body at *
    rw [hrest, List.append_cons] at hsplit
    obtain ⟨rfl, -⟩ := List.append_inj hsplit (by rw [List.length_append, List.length_singleton]; omega)
    rw [quoted, List.append_assoc, List.singleton_append, Lexeme.takeWhile_append_cons hall (by decide),
      List.drop_left, List.length_append]
    rfl
  · exact absurd (Prod.mk.inj hw).1.symm htag

theorem Succeeds.ne_cons {d : Char} (h : Succeeds r r') (hd : isBlank d = false) (hr : ∀ t, r ≠ d :: t) :
    ∀ t, r' ≠ d :: t := by
  rintro t rfl
  rcases h with h | ⟨c, hc, hblank⟩
  · cases r with
    | nil => cases h
    | cons e r =>
      cases h
      exact hr r rfl
  · cases hc
    rw [hd] at hblank
    cases hblank

theorem symbol_less (he : ∀ t, r ≠ '=' :: t) (hg : ∀ t, r ≠ '>' :: t) : symbol ('<' :: r) = (.comparison .lt, 1) := by
  rw [symbol] <;> assumption

theorem symbol_greater (he : ∀ t, r ≠ '=' :: t) (hl : ∀ t, r ≠ '<' :: t) :
    symbol ('>' :: r) = (.comparison .gt, 1) := by
  rw [symbol] <;> assumption

theorem symbol_other (hl : c ≠ '<') (hg : c ≠ '>') : symbol (c :: r) = (.ofSymbol c, 1) := by
  rw [symbol] <;> simp_all

theorem symbol_append (h : Succeeds r r') (hw : symbol (c :: (cs ++ r)) = (tag, cs.length + 1)) :
    symbol (c :: (cs ++ r')) = (tag, cs.length + 1) := by
  unfold symbol at hw
  split at hw <;> obtain ⟨rfl, hlength⟩ := Prod.mk.inj hw
  case h_1 tail heq | h_2 tail heq | h_4 tail heq | h_5 tail heq =>
    obtain ⟨d, rfl⟩ := List.length_eq_one_iff.1 (Nat.succ.inj hlength).symm
    cases heq
    rfl
  case h_3 tail he hg heq =>
    obtain rfl := List.length_eq_zero_iff.1 (Nat.succ.inj hlength).symm
    cases heq
    exact symbol_less (h.ne_cons (by decide) he) (h.ne_cons (by decide) hg)
  case h_6 tail he hl heq =>
    obtain rfl := List.length_eq_zero_iff.1 (Nat.succ.inj hlength).symm
    cases heq
    exact symbol_greater (h.ne_cons (by decide) he) (h.ne_cons (by decide) hl)
  case h_7 _ _ hl _ _ hg heq =>
    obtain rfl := List.length_eq_zero_iff.1 (Nat.succ.inj hlength).symm
    cases heq
    exact symbol_other hl hg
  case h_8 heq => cases heq

/-- The lexeme does not depend on what follows it. -/
theorem lexeme_append (h : Succeeds r r') (hw : lexeme (w ++ r) = .ok (tag, w.length)) (heof : tag ≠ .eof)
    (hinvalid : tag ≠ .invalid) : lexeme (w ++ r') = .ok (tag, w.length) := by
  cases w with
  | nil => exact absurd (lexeme_length_pos hw heof) (Nat.lt_irrefl 0)
  | cons c w =>
    simp only [List.cons_append, lexeme] at hw ⊢
    -- The first character decides which of the runs is taken, and no run goes on into what follows.
    split at hw
    · exact absurd (Prod.mk.inj (Except.ok.inj hw)).1.symm heof
    rw [if_neg ‹_›]
    split at hw
    · rw [if_pos ‹_›]
      exact hw
    rw [if_neg ‹_›]
    split at hw
    · rw [if_pos ‹_›]
      exact numeral_append (w := c :: w) h hw
    rw [if_neg ‹_›]
    split at hw
    · rw [if_pos ‹_›]
      exact congrArg _ (quoted_append (Except.ok.inj hw) hinvalid)
    rw [if_neg ‹_›]
    split at hw
    · rw [if_pos ‹_›]
      have hrun : ((c :: w) ++ r).takeWhile Char.isUpper = c :: w :=
        takeWhile_eq_of_length (Prod.mk.inj (Except.ok.inj hw)).2
      rw [← List.cons_append, hrun] at hw
      rw [← List.cons_append, takeWhile_append h isUpper_eq_false_of_isBlank hrun]
      exact hw
    · rw [if_neg ‹_›]
      exact congrArg _ (symbol_append h (Except.ok.inj hw))

/-- No remark starts at a lexeme, whatever follows it. -/
theorem gap_append (h : Succeeds r r') (hw : lexeme (w ++ r) = .ok (tag, w.length)) (heof : tag ≠ .eof)
    (hgap : gap false (w ++ r) = 0) : gap false (w ++ r') = 0 := by
  cases w with
  | nil => exact absurd (lexeme_length_pos hw heof) (Nat.lt_irrefl 0)
  | cons c w =>
    rw [List.cons_append, gap] at hgap
    split at hgap
    · cases hgap
    split at hgap
    · cases hgap
    rename_i hblank hremark
    refine Lexeme.gap_eq_zero (Bool.eq_false_iff.2 hblank) ?_
    by_cases hc : c.isUpper
    · -- A remark starts with a word, and the word is the lexeme itself.
      have hrun : ((c :: w) ++ r).takeWhile Char.isUpper = c :: w := by
        rw [List.cons_append, Lexeme.lexeme_of_isUpper hc] at hw
        exact takeWhile_eq_of_length (Prod.mk.inj (Except.ok.inj hw)).2
      show startsRemark (c :: w ++ r') = false
      rw [startsRemark, takeWhile_append h isUpper_eq_false_of_isBlank hrun, ← hrun]
      exact Bool.eq_false_iff.2 hremark
    · exact Lexeme.startsRemark_eq_false (Bool.eq_false_iff.2 hc)

theorem quoted_length_le (cs : List Char) : (quoted cs).2 ≤ cs.length + 1 := by
  have hrun : (cs.takeWhile isStringChar).length ≤ cs.length := (List.takeWhile_prefix _).length_le
  simp only [quoted]
  split
  · rename_i rest hrest
    have hlength := congrArg List.length hrest
    rw [List.length_drop, List.length_cons] at hlength
    dsimp only
    omega
  · exact Nat.succ_le_succ hrun

theorem symbol_length_le (c : Char) (cs : List Char) : (symbol (c :: cs)).2 ≤ cs.length + 1 := by
  unfold symbol
  split <;> simp_all

/-- A lexeme lies within its text. -/
theorem lexeme_length_le (h : lexeme cs = .ok (tag, n)) (heof : tag ≠ .eof) : n ≤ cs.length := by
  cases cs with
  | nil =>
    cases h
    exact absurd rfl heof
  | cons c cs =>
    simp only [lexeme] at h
    split at h
    · exact absurd (Prod.mk.inj (Except.ok.inj h)).1.symm heof
    split at h
    · cases h
      simp
    split at h
    · rw [numeral_length h]
      exact (List.takeWhile_prefix _).length_le
    split at h
    · have hle := quoted_length_le cs
      rw [Except.ok.inj h] at hle
      exact hle
    split at h
    · cases h
      exact (List.takeWhile_prefix _).length_le
    · have hle := symbol_length_le c cs
      rw [Except.ok.inj h] at hle
      exact hle

end Lexeme

/-! ### The words of a text -/

/-- The words of a text. The end of the text is the last of them. -/
inductive Words : List Char → List Lexeme → Prop
  | last {cs : List Char} {n : Nat} (h : lexeme (cs.drop (gap false cs)) = .ok (.eof, n)) :
      Words cs [(.eof, (cs.drop (gap false cs)).take n)]
  | more {cs : List Char} {tag : Tag} {n : Nat} {ws : List Lexeme}
      (h : lexeme (cs.drop (gap false cs)) = .ok (tag, n)) (htag : tag ≠ .eof)
      (hws : Words (cs.drop (gap false cs + n)) ws) : Words cs ((tag, (cs.drop (gap false cs)).take n) :: ws)

/-- What may be put between tokens: blanks, or a remark with a blank in front of it. -/
inductive Spacing : List Char → Prop
  | blanks {x : List Char} (hne : x ≠ []) (h : x.all isBlank) : Spacing x
  | remark {text : List Char} (h : ∀ c ∈ text, c ≠ '\n' ∧ c ≠ '\x00') :
      Spacing (" REM ".toList ++ text ++ ['\n'])

/-- A text with something put at a position. -/
def insertAt (source : List Char) (k : Nat) (x : List Char) : List Char := source.take k ++ (x ++ source.drop k)

/-- The second text is the first one with something put in front of it or behind one of its tokens. -/
inductive Inserted (x : List Char) : List Char → List Char → Prop
  | front (cs : List Char) : Inserted x cs (x ++ cs)
  | behind {cs cs' : List Char} {tag : Tag} {n : Nat} (h : lexeme (cs.drop (gap false cs)) = .ok (tag, n))
      (htag : tag ≠ .eof) (hcs : Inserted x (cs.drop (gap false cs + n)) cs') :
      Inserted x cs (cs.take (gap false cs + n) ++ cs')

section Words

variable {x cs cs' g source : List Char} {ws : List Lexeme} {tag : Tag} {n : Nat} {s : Scanner} {ts : List Token}

theorem Scanner.next_of_lexeme {k : Nat} (h : LineBasic.lexeme (cs.drop (gap false cs)) = .ok (tag, n)) :
    next ⟨k, cs⟩ = .ok (⟨tag, k + gap false cs, k + gap false cs + n⟩,
      ⟨k + gap false cs + n, cs.drop (gap false cs + n)⟩) :=
  next_eq_ok_iff.2 ⟨n, h, rfl, rfl, rfl⟩

theorem Token.text_of_drop {k m n : Nat} (hk : source.drop k = cs) :
    Token.text source ⟨tag, k + m, k + m + n⟩ = (cs.drop m).take n := by
  rw [text, ← List.drop_drop, hk, Nat.add_sub_cancel_left]

theorem Scanner.Scans.words (h : s.Scans ts) (hs : source.drop s.position = s.rest) :
    Words s.rest (lexemesOf source ts) := by
  induction h with
  | @last s s' t h ht =>
    obtain ⟨n, hl, hstart, hstop, -⟩ := next_eq_ok_iff.1 h
    obtain ⟨tag, start, stop⟩ := t
    obtain rfl : start = s.position + gap false s.rest := hstart
    obtain rfl : stop = s.position + gap false s.rest + n := hstop
    cases ht
    rw [lexemesOf, List.map_singleton, Token.text_of_drop hs]
    exact .last hl
  | @more s s' t ts h ht _ ih =>
    obtain ⟨n, hl, hstart, hstop, rfl⟩ := next_eq_ok_iff.1 h
    obtain ⟨tag, start, stop⟩ := t
    obtain rfl : start = s.position + gap false s.rest := hstart
    obtain rfl : stop = s.position + gap false s.rest + n := hstop
    rw [lexemesOf, List.map_cons, Token.text_of_drop hs]
    refine .more hl ht (ih ?_)
    rw [← hs, List.drop_drop, Nat.add_assoc]

theorem Words.exists_scans (h : Words cs ws) {k : Nat} (hk : source.drop k = cs) :
    ∃ ts, Scanner.Scans ⟨k, cs⟩ ts ∧ lexemesOf source ts = ws := by
  induction h generalizing k with
  | @last cs n h =>
    refine ⟨_, .last (Scanner.next_of_lexeme h) rfl, ?_⟩
    rw [lexemesOf, List.map_singleton, Token.text_of_drop hk]
  | @more cs tag n ws h htag _ ih =>
    obtain ⟨ts, hts, rfl⟩ := ih (k := k + gap false cs + n) (by rw [← hk, List.drop_drop, Nat.add_assoc])
    refine ⟨_, .more (Scanner.next_of_lexeme h) htag hts, ?_⟩
    rw [lexemesOf, List.map_cons, Token.text_of_drop hk]
    rfl

/-- The words of a text are those of its tokens. -/
theorem words_iff_scan : Words source ws ↔ ∃ tokens, scan source = .ok tokens ∧ lexemesOf source tokens = ws := by
  constructor
  · intro h
    obtain ⟨ts, hscans, hws⟩ := h.exists_scans (List.drop_zero : source.drop 0 = source)
    exact ⟨ts, Scanner.tokens_of_scans hscans, hws⟩
  · rintro ⟨tokens, hscan, rfl⟩
    exact (Scanner.scans_of_tokens hscan).words rfl

theorem Spacing.passes (h : Spacing x) : Passes false x := by
  cases h with
  | blanks _ h => exact passes_of_blanks h
  | @remark text h =>
    have hopens : ∀ r, gap false ('R' :: 'E' :: 'M' :: ' ' :: r) = gap true r + 1 + 1 + 1 + 1 := fun r => rfl
    refine .blank (g := 'R' :: 'E' :: 'M' :: ' ' :: (text ++ ['\n'])) (by decide) fun r => ?_
    simp only [List.cons_append, hopens, passes_remark h r, List.length_cons]
    omega

theorem Spacing.exists_cons (h : Spacing x) : ∃ c y, x = c :: y ∧ isBlank c := by
  cases h with
  | blanks hne h =>
    obtain ⟨c, y, rfl⟩ := List.exists_cons_of_ne_nil hne
    rw [List.all_cons, Bool.and_eq_true] at h
    exact ⟨c, y, rfl, h.1⟩
  | remark h => exact ⟨' ', _, rfl, by decide⟩

/-- A text with a token is what stands in front of the token, the token and what follows it. -/
theorem exists_append_of_lexeme (h : lexeme (cs.drop (gap false cs)) = .ok (tag, n)) (htag : tag ≠ .eof) :
    ∃ g w r, cs = g ++ (w ++ r) ∧ Passes false g ∧ g.length = gap false cs ∧ w.length = n := by
  have hlength := lexeme_length_le h htag
  refine ⟨cs.take (gap false cs), (cs.drop (gap false cs)).take n, (cs.drop (gap false cs)).drop n, ?_, ?_, ?_, ?_⟩
  · rw [List.take_append_drop, List.take_append_drop]
  · cases hd : cs.drop (gap false cs) with
    | nil =>
      rw [hd] at h
      exact absurd (Prod.mk.inj (Except.ok.inj h)).1.symm htag
    | cons d r =>
      refine passes_take_gap false hd ?_
      rintro rfl
      rw [hd] at h
      exact absurd (Prod.mk.inj (Except.ok.inj h)).1.symm htag
  · have hpos := lexeme_length_pos h htag
    rw [List.length_drop] at hlength
    rw [List.length_take]
    omega
  · rw [List.length_take]
    omega

/-- Whatever is passed over may be put in front of a text. -/
theorem Words.of_passes (hg : Passes false g) (h : Words cs ws) : Words (g ++ cs) ws := by
  have hdrop : ∀ m, (g ++ cs).drop (gap false (g ++ cs) + m) = cs.drop (gap false cs + m) := fun m => by
    rw [hg cs, Nat.add_assoc, List.drop_length_add_append]
  have hdrop' : (g ++ cs).drop (gap false (g ++ cs)) = cs.drop (gap false cs) := hdrop 0
  cases h with
  | last h =>
    rw [← hdrop'] at h ⊢
    exact .last h
  | more h htag hws =>
    rw [← hdrop'] at h ⊢
    rw [← hdrop] at hws
    exact .more h htag hws

/-- A text that starts with a word. -/
theorem Words.word {w r : List Char} (hgap : gap false (w ++ r) = 0) (h : lexeme (w ++ r) = .ok (tag, w.length))
    (htag : tag ≠ .eof) (hws : Words r ws) : Words (w ++ r) ((tag, w) :: ws) := by
  have hmore : Words (w ++ r) ((tag, ((w ++ r).drop (gap false (w ++ r))).take w.length) :: ws) := by
    refine .more ?_ htag ?_
    · rw [hgap]
      exact h
    · rw [hgap, Nat.zero_add, List.drop_left]
      exact hws
  rw [hgap, List.drop_zero, List.take_left] at hmore
  exact hmore

theorem Inserted.succeeds (h : Inserted x cs cs') (hx : Spacing x) : Succeeds cs cs' := by
  cases h with
  | front =>
    obtain ⟨c, y, rfl, hc⟩ := hx.exists_cons
    exact .inr ⟨c, rfl, hc⟩
  | @behind _ cs' tag n h htag hcs =>
    obtain ⟨g, w, r, rfl, -, hlength, rfl⟩ := exists_append_of_lexeme h htag
    have hne : g ++ w ≠ [] := by
      have hpos := lexeme_length_pos h htag
      rw [← List.length_pos_iff, List.length_append]
      omega
    obtain ⟨c, u, hu⟩ := List.exists_cons_of_ne_nil hne
    left
    rw [← hlength, List.take_length_add_append, List.take_left, ← List.append_assoc, hu]
    rfl

/-- The words of a text stay the same when something is put between them. -/
theorem Words.inserted (h : Words cs ws) (hinvalid : ∀ w ∈ ws, w.1 ≠ .invalid) (hx : Spacing x)
    (hcs : Inserted x cs cs') : Words cs' ws := by
  induction hcs generalizing ws with
  | front cs => exact h.of_passes hx.passes
  | @behind cs cs' tag n hl htag hcs ih =>
    cases h with
    | last h =>
      rw [hl] at h
      exact absurd (Prod.mk.inj (Except.ok.inj h)).1 htag
    | more h _ hws =>
      rw [hl] at h
      cases h
      obtain ⟨hhead, htail⟩ := List.forall_mem_cons.1 hinvalid
      have hsucceeds := hcs.succeeds hx
      have hws' := ih hws htail
      have hzero := gap_drop_gap false cs
      obtain ⟨g, w, r, rfl, hg, hlength, rfl⟩ := exists_append_of_lexeme hl htag
      simp only [← hlength, List.drop_left, List.drop_length_add_append, List.take_length_add_append,
        List.take_left] at hl hzero hsucceeds ⊢
      rw [List.append_assoc]
      exact .of_passes hg (.word (gap_append hsucceeds hl htag hzero) (lexeme_append hsucceeds hl htag hhead) htag hws')

/-- Behind a token of a text, something can be put. -/
theorem Scanner.Scans.inserted (h : s.Scans ts) {t : Token} (ht : t ∈ ts) (heof : t.tag ≠ .eof) (x : List Char) :
    ∃ m, t.stop = s.position + m ∧ Inserted x s.rest (s.rest.take m ++ (x ++ s.rest.drop m)) := by
  induction h with
  | last h heof' =>
    rw [List.mem_singleton.1 ht] at heof
    exact absurd heof' heof
  | @more s s' u ts h htag _ ih =>
    obtain ⟨n, hl, hstart, hstop, rfl⟩ := next_eq_ok_iff.1 h
    have hplace : u.stop = s.position + (gap false s.rest + n) := by omega
    rcases List.mem_cons.1 ht with rfl | ht
    · exact ⟨_, hplace, .behind hl htag (.front _)⟩
    · obtain ⟨m, hm, hins⟩ := ih ht
      refine ⟨gap false s.rest + n + m, by dsimp only at hm; omega, ?_⟩
      have hbehind := Inserted.behind hl htag hins
      rw [List.drop_drop] at hbehind
      rw [List.take_add, List.append_assoc]
      exact hbehind

/-- Something put at the start of a text or behind one of its tokens leaves the words of the text as they are. -/
theorem exists_scan_insert {tokens : List Token} {k : Nat} (h : scan source = .ok tokens)
    (hvalid : ∀ t ∈ tokens, t.tag ≠ .invalid) (hk : k = 0 ∨ ∃ t ∈ tokens, t.tag ≠ .eof ∧ t.stop = k)
    (hx : Spacing x) : ∃ tokens', scan (insertAt source k x) = .ok tokens' ∧
      lexemesOf (insertAt source k x) tokens' = lexemesOf source tokens := by
  have hins : Inserted x source (insertAt source k x) := by
    rcases hk with rfl | ⟨t, ht, heof, rfl⟩
    · exact .front source
    · obtain ⟨m, hm, hins⟩ := (Scanner.scans_of_tokens h).inserted ht heof x
      rw [hm, Scanner.start, Nat.zero_add, insertAt]
      exact hins
  refine words_iff_scan.1 ((words_iff_scan.2 ⟨tokens, h, rfl⟩).inserted ?_ hx hins)
  intro w hw
  obtain ⟨t, ht, rfl⟩ := List.mem_map.1 hw
  exact hvalid t ht

end Words

end LineBasic

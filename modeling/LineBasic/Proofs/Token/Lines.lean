import LineBasic.Proofs.Token.Tiling

/-!
# Scanning line by line

When a text is put in front of another one with a line end between them, the tokens of both stay as they are. The line
end is a token of its own unless the first text ends inside a remark, which takes the line end along. What a line holds,
invalid tokens included, does not reach the tokens of the lines below it.

## Main definitions

* `Token.moved`: a token further on in a text.
* `EndsInRemark`: what stands behind the last token of a text ends inside a remark.

## Main results

* `lexeme_append_line`, `gap_append_line`: a line end cuts a text like its end does.
* `Filler.endsInRemark_or`: what stands behind the last token can only be left open by a remark.
* `scan_append_line`: the tokens of two texts with a line end between them.
-/

namespace LineBasic

/-- The token `n` characters further on. -/
def Token.moved (n : Nat) (t : Token) : Token := ⟨t.tag, t.start + n, t.stop + n⟩

/-- What stands behind the last token of a text ends inside a remark. -/
def EndsInRemark (g : List Char) : Prop :=
  ∃ f text, g = f ++ 'R' :: 'E' :: 'M' :: text ∧ Filler false f ∧ RemarkText text

/-! ### Lexemes in front of a line end -/

section Lexeme

variable {c : Char} {cs : List Char} {p : Char → Bool}

/-- A run of characters ends at a line end like at the end of the text. -/
theorem takeWhile_append_line (hp : p '\n' = false) (cs r : List Char) :
    (cs ++ '\n' :: r).takeWhile p = cs.takeWhile p := by
  induction cs with
  | nil => rw [List.nil_append, List.takeWhile_cons, hp]; rfl
  | cons c cs ih => rw [List.cons_append, List.takeWhile_cons, List.takeWhile_cons, ih]

theorem quoted_append_line (cs r : List Char) : quoted (cs ++ '\n' :: r) = quoted cs := by
  have hle : (cs.takeWhile isStringChar).length ≤ cs.length := (List.takeWhile_prefix _).length_le
  have hclosed : (cs ++ '\n' :: r)[(cs.takeWhile isStringChar).length]? = some '"' ↔
      cs[(cs.takeWhile isStringChar).length]? = some '"' := by
    rcases Nat.lt_or_eq_of_le hle with hlt | heq
    · rw [List.getElem?_append_left hlt]
    · rw [heq, List.getElem?_append_right (Nat.le_refl _), Nat.sub_self, List.getElem?_eq_none (Nat.le_refl _)]
      exact ⟨nofun, nofun⟩
  rw [quoted_eq, quoted_eq, takeWhile_append_line (by decide), if_congr hclosed rfl rfl]

theorem symbol_append_line (c : Char) (cs r : List Char) : symbol (c :: (cs ++ '\n' :: r)) = symbol (c :: cs) := by
  cases cs with
  | cons d cs => exact symbol_cons_cons c d _ _
  | nil => exact symbol_single (by decide) c r

/-- A line end cuts a lexeme off like the end of the text does. -/
theorem lexeme_append_line (c : Char) (cs r : List Char) : lexeme (c :: (cs ++ '\n' :: r)) = lexeme (c :: cs) := by
  simp only [lexeme, ← List.cons_append]
  rw [takeWhile_append_line (by decide), takeWhile_append_line (by decide), quoted_append_line, List.cons_append,
    symbol_append_line]

theorem startsRemark_append_line (cs r : List Char) : startsRemark (cs ++ '\n' :: r) = startsRemark cs := by
  rw [startsRemark, startsRemark, takeWhile_append_line (by decide)]

/-- In front of a lexeme, as much is passed over as without the line end. -/
theorem gap_append_line (inRemark : Bool) (h : cs.drop (gap inRemark cs) ≠ []) (r : List Char) :
    gap inRemark (cs ++ '\n' :: r) = gap inRemark cs := by
  fun_induction gap inRemark cs with
  | case1 => exact absurd rfl h
  | case2 cs ih => rw [List.cons_append, gap, if_pos rfl, ih h]
  | case3 cs => rfl
  | case4 c cs hline hend ih => rw [List.cons_append, gap_remark_cons hline hend, ih h]
  | case5 c cs hblank ih => rw [List.cons_append, gap_blank hblank, ih h]
  | case6 c cs hblank hremark ih =>
    have hstarts : startsRemark (c :: (cs ++ '\n' :: r)) := by
      rw [← List.cons_append, startsRemark_append_line]
      exact hremark
    rw [List.cons_append, gap, if_neg hblank, if_pos hstarts, ih h]
  | case7 c cs hblank hremark =>
    refine Lexeme.gap_eq_zero (Bool.eq_false_iff.2 hblank) ?_
    exact (startsRemark_append_line (c :: cs) r).trans (Bool.eq_false_iff.2 hremark)

end Lexeme

/-! ### What a text ends in -/

section Filler

variable {last : Bool} {f g : List Char}

theorem Filler.append (hf : Filler false f) (hg : Filler last g) : Filler last (f ++ g) := by
  induction hf with
  | nil => exact hg
  | blank hc _ ih => exact .blank hc ih
  | remark htext _ ih =>
    rw [List.cons_append, List.cons_append, List.cons_append, List.append_assoc, List.cons_append]
    exact .remark htext ih
  | unclosed hlast => cases hlast

/-- What stands behind the last token is closed, or ends inside a remark. -/
theorem Filler.endsInRemark_or (h : Filler true g) : EndsInRemark g ∨ Filler false g := by
  have behind : ∀ {f g : List Char}, Filler false f → EndsInRemark g ∨ Filler false g →
      EndsInRemark (f ++ g) ∨ Filler false (f ++ g) := by
    rintro f g hf (⟨f', text, rfl, hf', htext⟩ | hg)
    · exact .inl ⟨f ++ f', text, (List.append_assoc ..).symm, hf.append hf', htext⟩
    · exact .inr (hf.append hg)
  induction h with
  | nil => exact .inr .nil
  | blank hc _ ih => exact behind (.blank hc .nil) ih
  | @remark text g htext _ ih =>
    have hremark := behind (.remark htext .nil) ih
    simp only [List.cons_append, List.append_assoc, List.nil_append] at hremark
    exact hremark
  | unclosed _ htext => exact .inl ⟨[], _, rfl, .nil, htext⟩

/-- A line end closes the remark that a text ends inside. -/
theorem EndsInRemark.filler (h : EndsInRemark g) : Filler false (g ++ ['\n']) := by
  obtain ⟨f, text, rfl, hf, htext⟩ := h
  rw [List.append_assoc]
  exact hf.append (.remark htext .nil)

/-- Behind the last of its tokens, a text has filler only. -/
theorem Tiles.filler_behind {source : List Char} {k : Nat} {ts : List Token} (h : Tiles source k ts) :
    offsetBehind k ts.dropLast ≤ endOf source ∧
      Filler true (between source (offsetBehind k ts.dropLast) (endOf source)) := by
  induction h with
  | last hk hg => exact ⟨hk, hg⟩
  | @more k t ts htag hk hne hstop hg hts ih =>
    have hne : ts ≠ [] := by cases hts <;> exact List.cons_ne_nil _ _
    rwa [List.dropLast_cons_of_ne_nil hne]

end Filler

/-! ### The tokens of two texts -/

section Tokens

variable {a b cs g : List Char} {k n : Nat} {s : Scanner} {t : Token} {ta tb ts : List Token}

theorem endOf_eq_length (h : '\x00' ∉ a) : endOf a = a.length := by
  have hsplit := endOf_append (fun c hc hnul => h (hnul ▸ hc)) []
  rwa [List.append_nil] at hsplit

theorem between_length (a : List Char) (k : Nat) : between a k a.length = a.drop k := by
  rw [between, ← List.length_drop, List.take_length]

theorem gap_line (cs : List Char) : gap false ('\n' :: cs) = 0 :=
  Lexeme.gap_eq_zero (by decide) (Lexeme.startsRemark_eq_false (by decide))

namespace Scanner

/-- The tokens of a text that stands further on. -/
theorem Scans.moved (h : s.Scans ts) (n : Nat) : Scans ⟨s.position + n, s.rest⟩ (ts.map (Token.moved n)) := by
  have step : ∀ {s s' : Scanner} {t : Token}, s.next = .ok (t, s') →
      next ⟨s.position + n, s.rest⟩ = .ok (t.moved n, ⟨s'.position + n, s'.rest⟩) := by
    intro s s' t h
    obtain ⟨m, hl, hstart, hstop, rfl⟩ := next_eq_ok_iff.1 h
    exact next_eq_ok_iff.2 ⟨m, hl, by dsimp only [Token.moved]; omega, by dsimp only [Token.moved]; omega, rfl⟩
  induction h with
  | last h ht => exact .last (step h) ht
  | more h ht _ ih => exact .more (step h) ht ih

/-- Filler in front of a text has no tokens. -/
theorem Scans.behind_filler (hg : Filler false g) (h : Scans ⟨k + g.length, cs⟩ ts) : Scans ⟨k, g ++ cs⟩ ts := by
  have hnext : next ⟨k, g ++ cs⟩ = next ⟨k + g.length, cs⟩ := by
    simp only [next, skip]
    rw [hg.gap_append (absurd · Bool.false_ne_true), List.drop_length_add_append, Nat.add_assoc]
  cases h with
  | last h ht => exact .last (hnext.trans h) ht
  | more h ht hts => exact .more (hnext.trans h) ht hts

/-- A token that a text has is found in front of a line end, too. -/
theorem next_append_line (h : (place a k).next = .ok (t, s)) (ht : t.tag ≠ .eof) (b : List Char) :
    s = place a t.stop ∧ (place (a ++ '\n' :: b) k).next = .ok (t, place (a ++ '\n' :: b) t.stop) := by
  obtain ⟨n, hl, hstart, hstop, rfl⟩ := next_place_eq_ok_iff.1 h
  refine ⟨rfl, ?_⟩
  have hmore : (a.drop k).drop (gap false (a.drop k)) ≠ [] := by
    intro hnil
    rw [← List.drop_drop, hnil] at hl
    exact ht (Prod.mk.inj (Except.ok.inj hl)).1.symm
  have hlt : k + gap false (a.drop k) < a.length := by
    rw [List.drop_drop] at hmore
    exact Nat.lt_of_not_le fun hle => hmore (List.drop_eq_nil_of_le hle)
  have hdrop : ∀ i ≤ a.length, (a ++ '\n' :: b).drop i = a.drop i ++ '\n' :: b :=
    fun i hi => List.drop_append_of_le_length hi
  have hgap : gap false ((a ++ '\n' :: b).drop k) = gap false (a.drop k) := by
    rw [hdrop k (by omega), gap_append_line false hmore]
  refine next_place_eq_ok_iff.2 ⟨n, ?_, hgap ▸ hstart, hstop, rfl⟩
  rw [List.drop_drop] at hmore
  obtain ⟨c, cs, hcs⟩ := List.exists_cons_of_ne_nil hmore
  rw [hgap, hdrop _ (Nat.le_of_lt hlt), hcs, List.cons_append, lexeme_append_line, ← hcs, hl]

/-- The tokens of a text stay in front of a line end; only its end gives way to what the line end and the text behind
it hold. -/
theorem Scans.append_line (h : (place a k).Scans ta)
    (hbehind : (place (a ++ '\n' :: b) (offsetBehind k ta.dropLast)).Scans ts) :
    (place (a ++ '\n' :: b) k).Scans (ta.dropLast ++ ts) := by
  generalize hs : place a k = s at h
  induction h generalizing k with
  | last => exact hbehind
  | @more s s' t ta h ht hta ih =>
    subst hs
    obtain ⟨rfl, hnext⟩ := next_append_line h ht b
    have hne : ta ≠ [] := by cases hta <;> exact List.cons_ne_nil _ _
    rw [List.dropLast_cons_of_ne_nil hne] at hbehind ⊢
    exact .more hnext ht (ih hbehind rfl)

end Scanner

/-- Behind its last token, a text without NUL has filler only, up to its end. -/
theorem filler_drop_offsetBehind (ha : '\x00' ∉ a) (hta : scan a = .ok ta) :
    offsetBehind 0 ta.dropLast ≤ a.length ∧ Filler true (a.drop (offsetBehind 0 ta.dropLast)) := by
  obtain ⟨htiles, -⟩ := scan_tiles hta
  have hbehind := htiles.filler_behind
  rwa [endOf_eq_length ha, between_length] at hbehind

theorem scans_moved_of_scan (htb : scan b = .ok tb) (n : Nat) : Scanner.Scans ⟨n, b⟩ (tb.map (Token.moved n)) := by
  have hmoved := (Scanner.scans_of_tokens htb).moved n
  rwa [Scanner.start, Nat.zero_add] at hmoved

/-- A remark takes the line end along. -/
theorem scan_append_of_remark (ha : '\x00' ∉ a) (hta : scan a = .ok ta) (htb : scan b = .ok tb)
    (hends : EndsInRemark (a.drop (offsetBehind 0 ta.dropLast))) :
    scan (a ++ '\n' :: b) = .ok (ta.dropLast ++ tb.map (Token.moved (a.length + 1))) := by
  have hscans : (Scanner.place a 0).Scans ta := Scanner.scans_of_tokens hta
  obtain ⟨hle, -⟩ := filler_drop_offsetBehind ha hta
  refine Scanner.tokens_of_scans (hscans.append_line ?_)
  rw [Scanner.place, List.drop_append_of_le_length hle, List.append_cons]
  refine .behind_filler hends.filler ?_
  rw [List.length_append, List.length_drop, List.length_singleton, ← Nat.add_assoc, Nat.add_sub_cancel' hle]
  exact scans_moved_of_scan htb (a.length + 1)

/-- Any other line end is a token. -/
theorem scan_append_of_not_remark (ha : '\x00' ∉ a) (hta : scan a = .ok ta) (htb : scan b = .ok tb)
    (hends : ¬EndsInRemark (a.drop (offsetBehind 0 ta.dropLast))) :
    scan (a ++ '\n' :: b) =
      .ok (ta.dropLast ++ ⟨.eol, a.length, a.length + 1⟩ :: tb.map (Token.moved (a.length + 1))) := by
  have hscans : (Scanner.place a 0).Scans ta := Scanner.scans_of_tokens hta
  obtain ⟨hle, hfiller⟩ := filler_drop_offsetBehind ha hta
  refine Scanner.tokens_of_scans (hscans.append_line ?_)
  generalize offsetBehind 0 ta.dropLast = k at hle hfiller hends ⊢
  have hgap := (hfiller.endsInRemark_or.resolve_left hends).gap_append (r := '\n' :: b) nofun
  rw [gap_line, Nat.add_zero, List.length_drop, ← List.drop_append_of_le_length hle] at hgap
  have hline : k + gap false ((a ++ '\n' :: b).drop k) = a.length := by omega
  refine .more (Scanner.next_place_eq_ok_iff.2 ⟨1, ?_, hline.symm, rfl, rfl⟩) nofun ?_
  · rw [hline, List.drop_left]
    rfl
  · rw [Scanner.place, List.append_cons, List.drop_left' (by simp)]
    exact scans_moved_of_scan htb (a.length + 1)

theorem filter_start_dropLast (ha : '\x00' ∉ a) (hta : scan a = .ok ta) :
    ta.dropLast.filter (fun t => a.length < t.start) = [] := by
  obtain ⟨-, ⟨front, hfront, hbounds, -⟩, -⟩ := scan_tiles hta
  rw [hfront, List.dropLast_concat, List.filter_eq_nil_iff]
  intro t ht
  obtain ⟨-, hlt, hstop⟩ := hbounds t ht
  rw [endOf_eq_length ha] at hstop
  exact mt of_decide_eq_true (by omega)

theorem filter_start_moved (n : Nat) (ts : List Token) :
    (ts.map (Token.moved (n + 1))).filter (fun t => n < t.start) = ts.map (Token.moved (n + 1)) := by
  refine List.filter_eq_self.2 fun t ht => ?_
  obtain ⟨u, -, rfl⟩ := List.mem_map.1 ht
  exact decide_eq_true (show n < u.start + (n + 1) by omega)

/-- Of two texts with a line end between them, the tokens are those of the first one without its end, the line end, and
those of the second one, further on. If the first text ends inside a remark, the line end belongs to the remark. The
tokens behind the line end are the same whatever the first text is. -/
theorem scan_append_line (ha : '\x00' ∉ a) (hta : scan a = .ok ta) (htb : scan b = .ok tb) :
    (EndsInRemark (a.drop (offsetBehind 0 ta.dropLast)) →
      scan (a ++ '\n' :: b) = .ok (ta.dropLast ++ tb.map (Token.moved (a.length + 1)))) ∧
    (¬EndsInRemark (a.drop (offsetBehind 0 ta.dropLast)) →
      scan (a ++ '\n' :: b) =
        .ok (ta.dropLast ++ ⟨.eol, a.length, a.length + 1⟩ :: tb.map (Token.moved (a.length + 1)))) ∧
    ∀ ts, scan (a ++ '\n' :: b) = .ok ts →
      ts.filter (fun t => a.length < t.start) = tb.map (Token.moved (a.length + 1)) := by
  have hremark := scan_append_of_remark ha hta htb
  have hclosed := scan_append_of_not_remark ha hta htb
  have hfront := filter_start_dropLast ha hta
  have hback := filter_start_moved a.length tb
  refine ⟨hremark, hclosed, fun ts hts => ?_⟩
  by_cases hends : EndsInRemark (a.drop (offsetBehind 0 ta.dropLast))
  · cases (hremark hends).symm.trans hts
    rw [List.filter_append, hfront, hback, List.nil_append]
  · cases (hclosed hends).symm.trans hts
    rw [List.filter_append, hfront, List.filter_cons_of_neg (by simp), hback, List.nil_append]

/-- A string that nothing closes ends at the line end, and a remark takes the line end along. The line below is scanned
as it stands. -/
theorem scan_append_line_open : ∃ ta ta' tb, '\x00' ∉ "10PRINT \"A".toList ∧ '\x00' ∉ "1 REM <\"".toList ∧
    scan "10PRINT \"A".toList = .ok ta ∧ scan "1 REM <\"".toList = .ok ta' ∧ scan "REM\n1+2".toList = .ok tb ∧
    scan "10PRINT \"A\nREM\n1+2".toList = .ok (ta.dropLast ++ ⟨.eol, 10, 11⟩ :: tb.map (Token.moved 11)) ∧
    scan "1 REM <\"\nREM\n1+2".toList = .ok (ta'.dropLast ++ tb.map (Token.moved 9)) := by
  have hta : scan "10PRINT \"A".toList =
      .ok [⟨.number, 0, 2⟩, ⟨.keyword .print, 2, 7⟩, ⟨.invalid, 8, 10⟩, ⟨.eof, 10, 10⟩] := by decide +kernel
  have hta' : scan "1 REM <\"".toList = .ok [⟨.number, 0, 1⟩, ⟨.eof, 8, 8⟩] := by decide +kernel
  have htb : scan "REM\n1+2".toList =
      .ok [⟨.number, 4, 5⟩, ⟨.sign .plus, 5, 6⟩, ⟨.number, 6, 7⟩, ⟨.eof, 7, 7⟩] := by decide +kernel
  have ha : '\x00' ∉ "10PRINT \"A".toList := by decide
  have ha' : '\x00' ∉ "1 REM <\"".toList := by decide
  refine ⟨_, _, _, ha, ha', hta, hta', htb, (scan_append_line ha hta htb).2.1 ?_, (scan_append_line ha' hta' htb).1 ?_⟩
  · rintro ⟨f, text, hdrop, -, -⟩
    have hlength := congrArg List.length hdrop
    simp [offsetBehind] at hlength
  · exact ⟨[' '], " <\"".toList, rfl, .blank (by decide) .nil, by simp, by simp⟩

end Tokens

end LineBasic

import LineBasic.Proofs.Token.Longest

/-!
# Tilings

The tokens of a text and what stands between them make up the text: no character is lost, read twice or passed over
without being a blank or part of a remark. Such a tiling by longest lexemes is the only one.

## Main definitions

* `endOf`: where a text ends.
* `Filler`: what stands between tokens.
* `endToken`: the token that marks the end of a text.
* `Tiles`: the tokens tile the text from an offset on.
* `Scanner.place`, `Scanner.calls`: a scanner at an offset, and what it gives when it is asked again and again.
* `NextToken`: the first token behind an offset.

## Main results

* `filler_take_gap`, `Filler.gap_append`: what the scanner passes over is filler, and it passes over all filler.
* `Scanner.nextToken_of_next`, `NextToken.eq_of_next`: the scanner finds the next token, and there is only one.
* `Scanner.Scans.tiles`, `Tiles.eq_of_scans`: the tokens of a scanner are longest lexemes that tile the text, and no
  others do.
* `scan_tiles`: what the tokens of a text leave out, and what a scanner gives at its end.
* `scan_determined`: the tokens of a text are the one tiling by longest lexemes.
-/

namespace LineBasic

/-- The offset at which a text ends: that of its first NUL or, if it has none, its length. -/
def endOf (source : List Char) : Nat := (source.takeWhile (· ≠ '\x00')).length

/-- The text between two offsets. -/
def between (source : List Char) (i j : Nat) : List Char := (source.drop i).take (j - i)

/-- The characters behind the word REM that belong to a remark: none is a line end or a NUL, and the first one is no
capital letter. -/
def RemarkText (text : List Char) : Prop :=
  (∀ c ∈ text, c ≠ '\n' ∧ c ≠ '\x00') ∧ ∀ c ∈ text.head?, c.isUpper = false

/-- What stands between tokens: blanks, and remarks with the line ends that close them. Only at the end of a text
(`last`) may a remark have no line end. -/
inductive Filler (last : Bool) : List Char → Prop
  | nil : Filler last []
  | blank {c : Char} {g : List Char} (hc : c ∈ [' ', '\t', '\r']) (hg : Filler last g) : Filler last (c :: g)
  | remark {text g : List Char} (htext : RemarkText text) (hg : Filler last g) :
      Filler last ('R' :: 'E' :: 'M' :: (text ++ '\n' :: g))
  | unclosed {text : List Char} (hlast : last = true) (htext : RemarkText text) :
      Filler last ('R' :: 'E' :: 'M' :: text)

/-- The token that marks the end of a text. -/
def endToken (source : List Char) : Token := ⟨.eof, endOf source, endOf source⟩

/-- The tokens and the filler in front of them tile the text from an offset up to its end. -/
inductive Tiles (source : List Char) : (offset : Nat) → List Token → Prop
  | last {k : Nat} (hk : k ≤ endOf source) (hg : Filler true (between source k (endOf source))) :
      Tiles source k [endToken source]
  | more {k : Nat} {t : Token} {ts : List Token} (htag : t.tag ≠ .eof) (hk : k ≤ t.start) (hne : t.start < t.stop)
      (hstop : t.stop ≤ endOf source) (hg : Filler false (between source k t.start)) (hts : Tiles source t.stop ts) :
      Tiles source k (t :: ts)

/-- The offset behind the last of the tokens; without tokens it is `k`. -/
def offsetBehind (k : Nat) : List Token → Nat
  | [] => k
  | t :: ts => offsetBehind t.stop ts

namespace Scanner

/-- The place at an offset of a text. -/
def place (source : List Char) (k : Nat) : Scanner := ⟨k, source.drop k⟩

/-- The tokens that a scanner gives when it is asked for the next one `n` times, and where it is then. -/
def calls : Nat → Scanner → Except ScanError (List Token × Scanner)
  | 0, s => .ok ([], s)
  | n + 1, s => do
    let (t, s) ← s.next
    let (ts, s) ← s.calls n
    return (t :: ts, s)

end Scanner

/-! ### Filler -/

section Filler

variable {last : Bool} {cs g r text : List Char}

theorem gap_le_length (inRemark : Bool) (cs : List Char) : gap inRemark cs ≤ cs.length := by
  fun_induction gap inRemark cs <;> simp only [List.length_cons, List.length_nil] <;> omega

theorem gap_of_hasEnded (inRemark : Bool) (h : HasEnded r) : gap inRemark r = 0 := by
  obtain rfl | ⟨r, rfl⟩ := h.cases
  · cases inRemark <;> rfl
  · cases inRemark
    · exact Lexeme.gap_eq_zero (by decide) (Lexeme.startsRemark_eq_false (by decide))
    · rfl

/-- A remark that nothing closes goes on up to the end of the text. -/
theorem gap_remark_of_hasEnded (htext : ∀ c ∈ text, c ≠ '\n' ∧ c ≠ '\x00') (hr : HasEnded r) :
    gap true (text ++ r) = text.length := by
  induction text with
  | nil => exact gap_of_hasEnded true hr
  | cons c text ih =>
    obtain ⟨⟨hline, hend⟩, htext⟩ := List.forall_mem_cons.1 htext
    rw [List.cons_append, gap_remark_cons hline hend, ih htext, List.length_cons]

/-- A remark is passed over from its first word on. -/
theorem gap_opens {cs : List Char} (h : cs.takeWhile Char.isUpper = []) :
    gap false ('R' :: 'E' :: 'M' :: cs) = gap true cs + 3 := by
  rw [gap, if_neg (by decide), if_pos (startsRemark_iff.2 ⟨cs, rfl, h⟩)]
  rfl

theorem RemarkText.takeWhile_append (htext : RemarkText text) (hr : r.takeWhile Char.isUpper = []) :
    (text ++ r).takeWhile Char.isUpper = [] := by
  cases text with
  | nil => exact hr
  | cons c text => exact List.takeWhile_cons_of_neg (by simp [htext.2 c rfl])

/-- The scanner passes over all filler. -/
theorem Filler.gap_append (h : Filler last g) (hr : last = true → HasEnded r) :
    gap false (g ++ r) = g.length + gap false r := by
  induction h with
  | nil => simp
  | blank hc _ ih =>
    rw [List.cons_append, gap_blank (by simpa [isBlank, or_assoc] using hc), ih, List.length_cons]
    omega
  | @remark text g htext _ ih =>
    have hopens : (text ++ '\n' :: (g ++ r)).takeWhile Char.isUpper = [] := htext.takeWhile_append (by simp)
    have hpassed := passes_remark htext.1 (g ++ r)
    rw [← List.append_cons, ih, List.length_append, List.length_singleton] at hpassed
    simp only [List.cons_append, List.append_assoc, List.length_cons, List.length_append]
    rw [gap_opens hopens, hpassed]
    omega
  | @unclosed text hlast htext =>
    have hends := hr hlast
    have hopens : (text ++ r).takeWhile Char.isUpper = [] := by
      refine htext.takeWhile_append ?_
      obtain rfl | ⟨r, rfl⟩ := hends.cases <;> rfl
    simp only [List.cons_append]
    rw [gap_opens hopens, gap_remark_of_hasEnded htext.1 hends, gap_of_hasEnded false hends]
    rfl

/-- What a scanner passes over inside a remark: the text up to the end, or the line end and what follows it. -/
theorem exists_remark (cs : List Char) : ∃ text r, cs = text ++ r ∧ (∀ c ∈ text, c ≠ '\n' ∧ c ≠ '\x00') ∧
    (HasEnded r ∧ gap true cs = text.length ∨
      ∃ r', r = '\n' :: r' ∧ gap true cs = text.length + 1 + gap false r') := by
  induction cs with
  | nil => exact ⟨[], [], rfl, nofun, .inl ⟨nofun, rfl⟩⟩
  | cons c cs ih =>
    by_cases hline : c = '\n'
    · subst hline
      refine ⟨[], '\n' :: cs, rfl, nofun, .inr ⟨cs, rfl, ?_⟩⟩
      rw [gap, if_pos rfl, List.length_nil]
      omega
    by_cases hend : c = '\x00'
    · subst hend
      exact ⟨[], '\x00' :: cs, rfl, nofun, .inl ⟨by simp [HasEnded], rfl⟩⟩
    obtain ⟨text, r, rfl, htext, hgap⟩ := ih
    refine ⟨c :: text, r, rfl, List.forall_mem_cons.2 ⟨⟨hline, hend⟩, htext⟩, ?_⟩
    rw [gap_remark_cons hline hend, List.length_cons]
    rcases hgap with ⟨hr, hgap⟩ | ⟨r', rfl, hgap⟩
    · exact .inl ⟨hr, by rw [hgap]⟩
    · exact .inr ⟨r', rfl, by omega⟩

/-- What the scanner passes over is filler, and a remark is left open only at the end of the text. -/
theorem filler_take_gap (cs : List Char) (h : HasEnded (cs.drop (gap false cs)) → last = true) :
    Filler last (cs.take (gap false cs)) := by
  induction hn : cs.length using Nat.strongRecOn generalizing cs with
  | ind n ih =>
    cases cs with
    | nil => exact .nil
    | cons c cs =>
      by_cases hblank : isBlank c
      · rw [gap_blank hblank] at h ⊢
        refine .blank (by simpa [isBlank, or_assoc] using hblank) (ih cs.length ?_ cs h rfl)
        exact hn ▸ Nat.lt_succ_self _
      by_cases hremark : startsRemark (c :: cs)
      · obtain ⟨rest, hcs, hrest⟩ := startsRemark_iff.1 hremark
        rw [hcs, gap_opens hrest] at h ⊢
        -- A remark that is open at the end of the text takes all of it, and one that is closed leaves a rest.
        obtain ⟨text, r, rfl, htext, hgap⟩ := exists_remark rest
        have hword : RemarkText text := by
          refine ⟨htext, fun d hd => ?_⟩
          obtain ⟨text, rfl⟩ := List.head?_eq_some_iff.1 (Option.mem_def.1 hd)
          simpa [List.takeWhile_cons] using hrest
        rw [List.take_succ_cons, List.take_succ_cons, List.take_succ_cons]
        rw [List.drop_succ_cons, List.drop_succ_cons, List.drop_succ_cons] at h
        rcases hgap with ⟨hr, hgap⟩ | ⟨r', rfl, hgap⟩
        · rw [hgap, List.drop_left] at h
          rw [hgap, List.take_left]
          exact .unclosed (h hr) hword
        · have hlength : gap true (text ++ '\n' :: r') = (text ++ ['\n']).length + gap false r' := by simp [hgap]
          rw [hlength, List.append_cons text '\n' r', List.drop_length_add_append] at h
          rw [hlength, List.append_cons text '\n' r', List.take_length_add_append, List.append_assoc]
          refine .remark hword (ih r'.length ?_ r' h rfl)
          have := congrArg List.length hcs
          simp only [List.length_cons, List.length_append] at this hn
          omega
      · have hgap : gap false (c :: cs) = 0 :=
          Lexeme.gap_eq_zero (Bool.eq_false_iff.2 hblank) (Bool.eq_false_iff.2 hremark)
        rw [hgap]
        exact .nil

/-- Filler does not contain the end of the text. -/
theorem Filler.ne_nul (h : Filler last g) : ∀ c ∈ g, c ≠ '\x00' := by
  have hword : ∀ {g : List Char}, (∀ c ∈ g, c ≠ '\x00') → ∀ c ∈ 'R' :: 'E' :: 'M' :: g, c ≠ '\x00' := by simp
  induction h with
  | nil => exact nofun
  | @blank c g hc _ ih =>
    refine List.forall_mem_cons.2 ⟨?_, ih⟩
    rintro rfl
    exact absurd hc (by decide)
  | @remark text g htext _ ih =>
    refine hword (List.forall_mem_append.2 ⟨?_, ?_⟩)
    · exact fun c hc => (htext.1 c hc).2
    · exact List.forall_mem_cons.2 ⟨by decide, ih⟩
  | @unclosed text _ htext =>
    exact hword fun c hc => (htext.1 c hc).2

end Filler

/-! ### Where a text ends -/

section Offsets

variable {source cs g r : List Char} {i j k n : Nat} {tag : Tag}

theorem endOf_append (h : ∀ c ∈ g, c ≠ '\x00') (r : List Char) : endOf (g ++ r) = g.length + endOf r := by
  rw [endOf, List.takeWhile_append_of_pos (by simpa using h), List.length_append]
  rfl

theorem endOf_of_hasEnded (h : HasEnded r) : endOf r = 0 := by
  obtain rfl | ⟨r, rfl⟩ := h.cases <;> rfl

theorem endOf_le_length (source : List Char) : endOf source ≤ source.length :=
  (List.takeWhile_sublist _).length_le

/-- Behind an offset a text ends where it ends as a whole. -/
theorem endOf_drop (hi : i ≤ endOf source) : i + endOf (source.drop i) = endOf source := by
  have hsound : ∀ c ∈ source.take i, c ≠ '\x00' := by
    intro c hc
    have hmem : c ∈ source.take (endOf source) := List.take_subset_take_left source hi hc
    rw [endOf, take_length_takeWhile] at hmem
    simpa using List.all_eq_true.1 List.all_takeWhile c hmem
  have hsplit := endOf_append hsound (source.drop i)
  rw [List.take_append_drop, List.length_take, Nat.min_eq_left (Nat.le_trans hi (endOf_le_length source))] at hsplit
  exact hsplit.symm

/-- Characters other than NUL do not reach beyond the end of a text. -/
theorem add_le_endOf (hi : i ≤ endOf source) (hn : n ≤ (source.drop i).length)
    (h : ∀ c ∈ (source.drop i).take n, c ≠ '\x00') : i + n ≤ endOf source := by
  have hsplit := endOf_append h ((source.drop i).drop n)
  rw [List.take_append_drop, List.length_take, Nat.min_eq_left hn] at hsplit
  have := endOf_drop hi
  omega

theorem hasEnded_drop_endOf (source : List Char) : HasEnded (source.drop (endOf source)) := by
  induction source with
  | nil => exact nofun
  | cons c cs ih =>
    by_cases hend : c = '\x00'
    · subst hend
      simp [endOf, HasEnded]
    · rw [endOf, List.takeWhile_cons, if_pos (by simpa using hend)]
      exact ih

theorem between_append_drop (h : i ≤ j) : between source i j ++ source.drop j = source.drop i := by
  have hj : source.drop j = (source.drop i).drop (j - i) := by rw [List.drop_drop, Nat.add_sub_cancel' h]
  rw [between, hj, List.take_append_drop]

theorem length_between (hj : j ≤ source.length) : (between source i j).length = j - i := by
  rw [between, List.length_take, List.length_drop]
  omega

end Offsets

/-! ### The next token -/

theorem Token.eq_of_fields {t t' : Token} (htag : t.tag = t'.tag) (hstart : t.start = t'.start)
    (hstop : t.stop = t'.stop) : t = t' := by
  cases t
  cases t'
  cases htag
  cases hstart
  cases hstop
  rfl

/-- The token is the first one behind an offset: the end of the text if only filler is left, and otherwise the longest
lexeme behind the filler. -/
inductive NextToken (source : List Char) (k : Nat) : Token → Prop
  | last (hg : Filler true (between source k (endOf source))) : NextToken source k (endToken source)
  | lexeme {t : Token} (hk : k ≤ t.start) (hstop : t.stop ≤ endOf source)
      (hg : Filler false (between source k t.start))
      (ht : LongestLexeme (source.drop t.start) t.tag (t.text source)) : NextToken source k t

namespace Scanner

variable {source : List Char} {k n : Nat} {s : Scanner} {t t' : Token} {ts ts' : List Token}

theorem next_place_eq_ok_iff : (place source k).next = .ok (t, s) ↔
    ∃ n, LineBasic.lexeme (source.drop (k + gap false (source.drop k))) = .ok (t.tag, n) ∧
      t.start = k + gap false (source.drop k) ∧ t.stop = t.start + n ∧ s = place source t.stop := by
  rw [next_eq_ok_iff]
  simp only [place, List.drop_drop]
  refine exists_congr fun n => and_congr_right fun _ => and_congr_right fun hstart => and_congr_right fun hstop => ?_
  rw [hstop, hstart, Nat.add_assoc]

/-- What a scanner finds is the next token, and it goes on behind it. -/
theorem nextToken_of_next (hk : k ≤ endOf source) (h : (place source k).next = .ok (t, s)) :
    NextToken source k t ∧ s = place source t.stop := by
  obtain ⟨n, hl, hstart, hstop, rfl⟩ := next_place_eq_ok_iff.1 h
  refine ⟨?_, rfl⟩
  have hbetween : between source k t.start = (source.drop k).take (gap false (source.drop k)) := by
    rw [between, hstart, Nat.add_sub_cancel_left]
  have hrest : source.drop t.start = (source.drop k).drop (gap false (source.drop k)) := by
    rw [hstart, List.drop_drop]
  have hle : t.start ≤ endOf source := by
    rw [hstart]
    have hfiller : Filler true ((source.drop k).take (gap false (source.drop k))) := filler_take_gap _ fun _ => rfl
    exact add_le_endOf hk (gap_le_length false _) hfiller.ne_nul
  rw [← hstart] at hl
  -- The scanner finds the end of the text or a lexeme in front of it.
  by_cases hends : HasEnded (source.drop t.start)
  · have hend : t.start = endOf source := by
      rw [← endOf_drop hle, endOf_of_hasEnded hends, Nat.add_zero]
    rw [lexeme_of_hasEnded hends] at hl
    obtain ⟨htag, rfl⟩ := Prod.mk.inj (Except.ok.inj hl)
    have htoken : t = endToken source := Token.eq_of_fields htag.symm hend (hstop.trans hend)
    rw [htoken]
    refine .last ?_
    rw [← hend, hbetween]
    exact filler_take_gap _ fun _ => rfl
  · have hlexeme := longestLexeme_of_lexeme hl hends (by rw [hrest]; exact gap_drop_gap false _)
    have hlength := lexeme_length_le hl hlexeme.tag_ne_eof
    refine .lexeme (hstart ▸ Nat.le_add_right _ _) ?_ ?_ ?_
    · rw [hstop]
      exact add_le_endOf hle hlength fun c hc => (hlexeme.of_mem hc).1
    · rw [hbetween]
      exact filler_take_gap _ fun h => absurd (hrest ▸ h) hends
    · rw [Token.text, hstop, Nat.add_sub_cancel_left]
      exact hlexeme

end Scanner

/-- There is only one next token. -/
theorem NextToken.eq_of_next {source : List Char} {k : Nat} {t t' : Token} {s : Scanner} (hk : k ≤ endOf source)
    (h : NextToken source k t) (hnext : (Scanner.place source k).next = .ok (t', s)) : t' = t := by
  obtain ⟨n, hl, hstart, hstop, -⟩ := Scanner.next_place_eq_ok_iff.1 hnext
  cases h with
  | last hg =>
    have hends := hasEnded_drop_endOf source
    have hgap := hg.gap_append fun _ => hends
    rw [between_append_drop hk, length_between (endOf_le_length source), gap_of_hasEnded false hends] at hgap
    have hend : k + gap false (source.drop k) = endOf source := by omega
    rw [hend, lexeme_of_hasEnded hends] at hl
    obtain ⟨htag, rfl⟩ := Prod.mk.inj (Except.ok.inj hl)
    exact Token.eq_of_fields htag.symm (hstart.trans hend) (hstop.trans (hstart.trans hend))
  | lexeme hle hstop' hg ht =>
    have hne := ht.ne_nil
    have hlength : (t.text source).length = t.stop - t.start :=
      length_between (Nat.le_trans hstop' (endOf_le_length source))
    have hpos := List.length_pos_iff.2 hne
    have hgap := hg.gap_append (r := source.drop t.start) nofun
    rw [between_append_drop hle, ht.gap_eq_zero,
      length_between (by have := endOf_le_length source; omega)] at hgap
    -- There is nothing to skip at a lexeme, so the gap is what stands between the tokens.
    have hplace : k + gap false (source.drop k) = t.start := by omega
    rw [hplace] at hl
    obtain ⟨htag, hn⟩ := ht.eq_of_lexeme hl
    exact Token.eq_of_fields htag (hstart.trans hplace) (by omega)

/-! ### The tokens of a text -/

section Tokens

variable {source : List Char} {k : Nat} {s : Scanner} {t : Token} {ts ts' : List Token}

theorem NextToken.eq_endToken (h : NextToken source k t) (ht : t.tag = .eof) : t = endToken source := by
  cases h with
  | last => rfl
  | lexeme _ _ _ hlexeme => exact absurd ht hlexeme.tag_ne_eof

/-- The tokens of a scanner tile the text, and each is the longest lexeme at its start. -/
theorem Scanner.Scans.tiles (h : (place source k).Scans ts) (hk : k ≤ endOf source) :
    Tiles source k ts ∧ ∀ t ∈ ts, t.tag ≠ .eof → LongestLexeme (source.drop t.start) t.tag (t.text source) := by
  generalize hs : place source k = s at h
  induction h generalizing k with
  | last h ht =>
    obtain ⟨hnext, -⟩ := nextToken_of_next hk (hs ▸ h)
    cases hnext with
    | last hg => exact ⟨.last hk hg, by simp [endToken]⟩
    | lexeme _ _ _ hlexeme => exact absurd ht hlexeme.tag_ne_eof
  | more h ht _ ih =>
    obtain ⟨hnext, hs'⟩ := nextToken_of_next hk (hs ▸ h)
    cases hnext with
    | last => exact absurd rfl ht
    | lexeme hle hstop hg hlexeme =>
      obtain ⟨htiles, hlexemes⟩ := ih hstop hs'.symm
      have hpos := List.length_pos_iff.2 hlexeme.ne_nil
      rw [Token.text, List.length_take] at hpos
      refine ⟨.more ht hle (by omega) hstop hg htiles, List.forall_mem_cons.2 ⟨fun _ => hlexeme, hlexemes⟩⟩

/-- Longest lexemes that tile the text are the tokens of the scanner. -/
theorem Tiles.eq_of_scans (h : Tiles source k ts') (hscans : (Scanner.place source k).Scans ts)
    (hlexemes : ∀ t ∈ ts', t.tag ≠ .eof → LongestLexeme (source.drop t.start) t.tag (t.text source)) : ts' = ts := by
  induction h generalizing ts with
  | last hk hg =>
    cases hscans with
    | last h ht => rw [(NextToken.last hg).eq_of_next hk h]
    | more h ht _ =>
      rw [(NextToken.last hg).eq_of_next hk h] at ht
      exact absurd rfl ht
  | @more k t ts' htag hk hne hstop hg _ ih =>
    obtain ⟨hlexeme, hrest⟩ := List.forall_mem_cons.1 hlexemes
    have hnext : NextToken source k t := .lexeme hk hstop hg (hlexeme htag)
    have hle : k ≤ endOf source := by omega
    cases hscans with
    | last h ht =>
      rw [hnext.eq_of_next hle h] at ht
      exact absurd ht htag
    | more h ht hts =>
      obtain rfl := hnext.eq_of_next hle h
      obtain ⟨-, rfl⟩ := Scanner.nextToken_of_next hle h
      rw [ih hts hrest]

/-- A tiling ends in the token for the end of the text, and all others are not empty, in order and in front of it. -/
theorem Tiles.exists_append (h : Tiles source k ts) : ∃ front, ts = front ++ [endToken source] ∧
    (∀ t ∈ front, t.tag ≠ .eof ∧ k ≤ t.start ∧ t.start < t.stop ∧ t.stop ≤ endOf source) ∧
    front.Pairwise fun t u => t.stop ≤ u.start := by
  induction h with
  | last => exact ⟨[], rfl, nofun, .nil⟩
  | @more k t ts htag hk hne hstop _ _ ih =>
    obtain ⟨front, rfl, hfront, hordered⟩ := ih
    refine ⟨t :: front, rfl, List.forall_mem_cons.2 ⟨⟨htag, hk, hne, hstop⟩, fun u hu => ?_⟩, ?_⟩
    · obtain ⟨hu, hle, hrest⟩ := hfront u hu
      exact ⟨hu, by omega, hrest⟩
    · exact List.pairwise_cons.2 ⟨fun u hu => (hfront u hu).2.1, hordered⟩

/-- At the end of a text a scanner gives the token for it and stays where it is. -/
theorem Scanner.next_end (source : List Char) :
    (place source (endOf source)).next = .ok (endToken source, place source (endOf source)) := by
  have hends := hasEnded_drop_endOf source
  refine next_place_eq_ok_iff.2 ⟨0, ?_⟩
  rw [gap_of_hasEnded false hends]
  exact ⟨lexeme_of_hasEnded hends, rfl, rfl, rfl⟩

theorem Scanner.calls_succ {s'' : Scanner} {n : Nat} (h : s.next = .ok (t, s')) (hcalls : s'.calls n = .ok (ts, s'')) :
    s.calls (n + 1) = .ok (t :: ts, s'') := by
  rw [calls, h]
  show (s'.calls n >>= fun r => pure (t :: r.1, r.2)) = _
  rw [hcalls]
  rfl

/-- The end of a text is found again and again. -/
theorem Scanner.calls_end (source : List Char) (n : Nat) :
    (place source (endOf source)).calls n =
      .ok (List.replicate n (endToken source), place source (endOf source)) := by
  induction n with
  | zero => rfl
  | succ n ih => exact calls_succ (next_end source) ih

theorem offsetBehind_replicate (source : List Char) (n : Nat) :
    offsetBehind (endOf source) (List.replicate n (endToken source)) = endOf source := by
  induction n with
  | zero => rfl
  | succ n ih => exact ih

/-- Asked again and again, a scanner gives its tokens and then the end of the text for good. It is always behind the
last token that it gave. -/
theorem Scanner.Scans.calls (h : (place source k).Scans ts) (hk : k ≤ endOf source) (n : Nat) :
    (place source k).calls n = .ok ((ts ++ List.replicate n (endToken source)).take n,
      place source (offsetBehind k ((ts ++ List.replicate n (endToken source)).take n))) := by
  induction n generalizing k ts with
  | zero => rfl
  | succ n ih =>
    cases h with
    | last h ht =>
      obtain ⟨hnext, rfl⟩ := nextToken_of_next hk h
      obtain rfl := hnext.eq_endToken ht
      -- Behind the last token the end is given over and over.
      have hgiven : ([endToken source] ++ List.replicate (n + 1) (endToken source)).take (n + 1) =
          endToken source :: List.replicate n (endToken source) := by
        rw [List.singleton_append, List.take_succ_cons, List.take_replicate, Nat.min_eq_left (Nat.le_succ n)]
      rw [hgiven, offsetBehind]
      refine calls_succ h ?_
      have hend := offsetBehind_replicate source n
      rw [endToken] at hend ⊢
      rw [hend]
      exact calls_end source n
    | @more _ s' t ts h ht hts =>
      obtain ⟨hnext, rfl⟩ := nextToken_of_next hk h
      have hstop : t.stop ≤ endOf source := by
        cases hnext with
        | last => exact Nat.le_refl _
        | lexeme _ hstop _ _ => exact hstop
      have hgiven : (t :: ts ++ List.replicate (n + 1) (endToken source)).take (n + 1) =
          t :: (ts ++ List.replicate n (endToken source)).take n := by
        rw [List.cons_append, List.take_succ_cons, List.replicate_succ', ← List.append_assoc,
          List.take_append_of_le_length (by simp)]
      rw [hgiven, offsetBehind]
      exact calls_succ h (ih hts hstop)

/-- The tokens of a text and the blanks and remarks between them make up the text. The last token is the only one for
its end, all others have a character, and they come one behind the other. Only a line end contains one. Asked `n` times,
a scanner gives the first `n` tokens, the last one over and over, and is then behind the last one that it gave. -/
theorem scan_tiles (h : scan source = .ok ts) :
    Tiles source 0 ts ∧
      (∃ front, ts = front ++ [endToken source] ∧
        (∀ t ∈ front, t.tag ≠ .eof ∧ t.start < t.stop ∧ t.stop ≤ endOf source) ∧
        front.Pairwise fun t u => t.stop ≤ u.start) ∧
      (∀ t ∈ ts, '\n' ∈ t.text source → t.tag = .eol) ∧
      ∀ n, ∃ given, given = (ts ++ List.replicate n (endToken source)).take n ∧
        (Scanner.start source).calls n = .ok (given, Scanner.place source (offsetBehind 0 given)) := by
  have hscans : (Scanner.place source 0).Scans ts := Scanner.scans_of_tokens h
  obtain ⟨htiles, hlexemes⟩ := hscans.tiles (Nat.zero_le _)
  obtain ⟨front, hfront, hbefore, hordered⟩ := htiles.exists_append
  refine ⟨htiles, ⟨front, hfront, ?_, hordered⟩, ?_, ?_⟩
  · intro t ht
    obtain ⟨htag, -, hbounds⟩ := hbefore t ht
    exact ⟨htag, hbounds⟩
  · intro t ht hline
    by_cases htag : t.tag = .eof
    · rw [hfront, List.mem_append, List.mem_singleton] at ht
      rcases ht with ht | rfl
      · exact absurd htag (hbefore t ht).1
      · simp [Token.text, endToken] at hline
    · exact ((hlexemes t ht htag).of_mem hline).2 rfl
  · exact fun n => ⟨_, rfl, hscans.calls (Nat.zero_le _) n⟩

/-- A remark that a NUL ends, and two more calls at the end. -/
theorem scan_tiles_remark : ∃ ts, scan "10PRINT A<=B REM no\x00X".toList = .ok ts ∧
    Tiles "10PRINT A<=B REM no\x00X".toList 0 ts ∧
    (Scanner.start "10PRINT A<=B REM no\x00X".toList).calls 8 =
      .ok (ts ++ [⟨.eof, 19, 19⟩, ⟨.eof, 19, 19⟩], ⟨19, "\x00X".toList⟩) := by
  have hscan : scan "10PRINT A<=B REM no\x00X".toList =
      .ok [⟨.number, 0, 2⟩, ⟨.keyword .print, 2, 7⟩, ⟨.var, 8, 9⟩, ⟨.comparison .le, 9, 11⟩, ⟨.var, 11, 12⟩,
        ⟨.eof, 19, 19⟩] := by decide +kernel
  obtain ⟨htiles, -, -, hcalls⟩ := scan_tiles hscan
  obtain ⟨given, hgiven, hcalls⟩ := hcalls 8
  subst hgiven
  exact ⟨_, hscan, htiles, hcalls⟩

/-- Each token of a text is the longest lexeme at its start, and no other longest lexemes tile the text. -/
theorem scan_determined (h : scan source = .ok ts) :
    Tiles source 0 ts ∧ (∀ t ∈ ts, t.tag ≠ .eof → LongestLexeme (source.drop t.start) t.tag (t.text source)) ∧
      ∀ ts', Tiles source 0 ts' →
        (∀ t ∈ ts', t.tag ≠ .eof → LongestLexeme (source.drop t.start) t.tag (t.text source)) → ts' = ts := by
  have hscans : (Scanner.place source 0).Scans ts := Scanner.scans_of_tokens h
  obtain ⟨htiles, hlexemes⟩ := hscans.tiles (Nat.zero_le _)
  exact ⟨htiles, hlexemes, fun ts' htiles' hlexemes' => htiles'.eq_of_scans hscans hlexemes'⟩

/-- An operator goes as far as it can, and a string ends in front of a character that it cannot hold. -/
theorem scan_determined_adjacent : ∃ ts, scan "<>=\"a~".toList = .ok ts ∧
    ts.map Token.tag = [.comparison .ne, .comparison .eq, .invalid, .invalid, .eof] ∧
    (∀ t ∈ ts, t.tag ≠ .eof → LongestLexeme ("<>=\"a~".toList.drop t.start) t.tag (t.text "<>=\"a~".toList)) ∧
    ∀ ts', Tiles "<>=\"a~".toList 0 ts' →
      (∀ t ∈ ts', t.tag ≠ .eof → LongestLexeme ("<>=\"a~".toList.drop t.start) t.tag (t.text "<>=\"a~".toList)) →
      ts' = ts := by
  have hscan : scan "<>=\"a~".toList =
      .ok [⟨.comparison .ne, 0, 2⟩, ⟨.comparison .eq, 2, 3⟩, ⟨.invalid, 3, 5⟩, ⟨.invalid, 5, 6⟩, ⟨.eof, 6, 6⟩] := by
    decide +kernel
  obtain ⟨-, hlexemes, hunique⟩ := scan_determined hscan
  exact ⟨_, hscan, rfl, hlexemes, hunique⟩

end Tokens

end LineBasic

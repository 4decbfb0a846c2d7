import LineBasic.Program.Report
import LineBasic.Proofs.Token.Tiling

/-!
# Marked tokens

A message shows the line in which a token begins and marks the token beneath. An offset stands in one line and at one
column, whatever its text looks like at the line ends next to it. All characters of a token but a line end stand in the
line in which it begins, so the mark is as wide as the token and stands beneath it.

## Main definitions

* `closedLines`: the text of lines that all have a line end.
* `Located`: an offset stands in a line of a text and at a column.

## Main results

* `exists_located`: every offset stands in a line.
* `Located.marked_eq`: what is shown of a token that starts there.
* `scan_marked`: what is shown of the tokens of a text.
-/

namespace LineBasic

/-- The text of lines each of which has a line end. -/
def closedLines (ls : List (List Char)) : List Char := ls.flatMap (· ++ ['\n'])

/-- An offset stands in a line of a text, at a column. The lines in front of that line are given, too. -/
structure Located (source : List Char) (k : Nat) (before : List (List Char)) (line : List Char) (column : Nat) :
    Prop where
  /-- The line is one of those that line ends set apart. -/
  splits : ∃ after, source.splitOn '\n' = before ++ line :: after
  text : ∃ rest, source = closedLines before ++ (line ++ rest) ∧ ∀ c ∈ rest.head?, c = '\n'
  offset : k = (closedLines before).length + column
  within : column ≤ line.length
  plain : ∀ l ∈ line :: before, '\n' ∉ l

section Lines

variable {source line : List Char} {before : List (List Char)} {k column n : Nat} {tag : Tag}

theorem closedLines_cons (l : List Char) (ls : List (List Char)) :
    closedLines (l :: ls) = l ++ '\n' :: closedLines ls := by
  rw [closedLines, List.flatMap_cons, List.append_assoc]
  rfl

theorem count_closedLines {ls : List (List Char)} (h : ∀ l ∈ ls, '\n' ∉ l) :
    (closedLines ls).count '\n' = ls.length := by
  induction ls with
  | nil => rfl
  | cons l ls ih =>
    obtain ⟨hl, hls⟩ := List.forall_mem_cons.1 h
    rw [closedLines_cons, List.count_append, List.count_eq_zero_of_not_mem hl, List.count_cons_self, ih hls,
      List.length_cons, Nat.zero_add]

/-- Going back from the start of a line, one meets a line end at once. -/
theorem takeWhile_reverse_closedLines (ls : List (List Char)) :
    (closedLines ls).reverse.takeWhile (· ≠ '\n') = [] := by
  rcases List.eq_nil_or_concat ls with rfl | ⟨ls, l, rfl⟩
  · rfl
  · simp [closedLines]

/-- Every offset stands in a line. -/
theorem exists_located (source : List Char) (hk : k ≤ source.length) :
    ∃ before line column, Located source k before line column := by
  -- The induction is on the lines, so it takes the first of them off.
  induction hlength : source.length using Nat.strongRecOn generalizing source k with
  | ind length ih =>
    by_cases hline : '\n' ∈ source
    · obtain ⟨l, r, rfl, hl⟩ := List.eq_append_cons_of_mem hline
      have hsplit : (l ++ '\n' :: r).splitOn '\n' = l :: r.splitOn '\n' :=
        List.splitOn_append_cons_self_of_not_mem hl r
      rw [List.length_append, List.length_cons] at hk hlength
      by_cases hfirst : k ≤ l.length
      · refine ⟨[], l, k, ⟨_, hsplit⟩, ⟨'\n' :: r, rfl, by simp⟩, ?_, hfirst, by simpa using hl⟩
        rw [closedLines, List.flatMap_nil, List.length_nil, Nat.zero_add]
      · obtain ⟨k, rfl⟩ : ∃ k', k = l.length + 1 + k' := ⟨k - (l.length + 1), by omega⟩
        obtain ⟨before, line, column, ⟨after, hafter⟩, ⟨rest, htext, hrest⟩, hoffset, hwithin, hplain⟩ :=
          ih r.length (by omega) (k := k) r (by omega) rfl
        refine ⟨l :: before, line, column, ⟨after, ?_⟩, ⟨rest, ?_, hrest⟩, ?_, hwithin, ?_⟩
        · rw [hsplit, hafter, List.cons_append]
        · rw [closedLines_cons, List.append_assoc, List.cons_append, ← htext]
        · rw [closedLines_cons, List.length_append, List.length_cons]
          omega
        · obtain ⟨hhead, htail⟩ := List.forall_mem_cons.1 hplain
          exact List.forall_mem_cons.2 ⟨hhead, List.forall_mem_cons.2 ⟨hl, htail⟩⟩
    · refine ⟨[], source, k, ⟨[], List.splitOn_eq_singleton hline⟩, ⟨[], ?_, nofun⟩, ?_, hk, by simpa using hline⟩
      · simp [closedLines]
      · simp [closedLines]

namespace Located

variable (h : Located source k before line column)
include h

theorem take_eq : source.take k = closedLines before ++ line.take column := by
  obtain ⟨rest, rfl, -⟩ := h.text
  rw [h.offset, List.take_length_add_append, List.take_append_of_le_length h.within]

theorem exists_drop_eq : ∃ rest, source.drop k = line.drop column ++ rest ∧ ∀ c ∈ rest.head?, c = '\n' := by
  obtain ⟨rest, rfl, hrest⟩ := h.text
  refine ⟨rest, ?_, hrest⟩
  rw [h.offset, List.drop_length_add_append, List.drop_append_of_le_length h.within]

/-- A line has as many line ends in front of it as lines. -/
theorem count_eq : (source.take k).count '\n' = before.length := by
  obtain ⟨hline, hbefore⟩ := List.forall_mem_cons.1 h.plain
  have hnone : '\n' ∉ line.take column := fun hmem => hline (List.mem_of_mem_take hmem)
  rw [h.take_eq, List.count_append, count_closedLines hbefore, List.count_eq_zero_of_not_mem hnone, Nat.add_zero]

theorem all_ne : ∀ c ∈ line, decide (c ≠ '\n') = true := fun _ hc =>
  decide_eq_true fun hline => (List.forall_mem_cons.1 h.plain).1 (hline ▸ hc)

theorem lineStart_eq : lineStart source k = (closedLines before).length := by
  have hback : ∀ c ∈ (line.take column).reverse, decide (c ≠ '\n') = true := fun c hc =>
    h.all_ne c (List.mem_of_mem_take (List.mem_reverse.1 hc))
  rw [lineStart, h.take_eq, List.reverse_append, List.takeWhile_append_of_pos hback, takeWhile_reverse_closedLines,
    List.append_nil, List.length_append, List.length_reverse, Nat.add_sub_cancel]

theorem lineFrom_eq : lineFrom source (closedLines before).length = line := by
  obtain ⟨rest, rfl, hrest⟩ := h.text
  rw [lineFrom, List.drop_left, List.takeWhile_append_of_pos h.all_ne, List.append_right_eq_self]
  cases rest with
  | nil => rfl
  | cons c rest => rw [List.takeWhile_cons, if_neg (by simp [hrest c rfl])]

/-- The line is shown, and beneath it the mark, at the column at which the token starts. -/
theorem marked_eq : Token.marked source ⟨tag, k, k + n⟩ =
    line ++ '\n' :: (List.replicate column ' ' ++ underline n ++ ['\n']) := by
  rw [Token.marked]
  dsimp only
  rw [h.lineStart_eq, h.lineFrom_eq, h.offset, Nat.add_sub_cancel_left, Nat.add_sub_cancel_left]

/-- Characters without a line end that stand at the offset stand in the line. -/
theorem take_drop_eq (hn : n ≤ (source.drop k).length) (hline : '\n' ∉ (source.drop k).take n) :
    (line.drop column).take n = (source.drop k).take n := by
  obtain ⟨rest, hdrop, hrest⟩ := h.exists_drop_eq
  rw [hdrop] at hn hline ⊢
  refine (List.take_append_of_le_length (Nat.le_of_not_lt fun hlt => hline ?_)).symm
  cases rest with
  | nil =>
    rw [List.append_nil] at hn
    omega
  | cons c rest =>
    cases hrest c rfl
    rw [List.mem_take_iff_getElem]
    refine ⟨(line.drop column).length, by omega, ?_⟩
    rw [List.getElem_append_right (Nat.le_refl _)]
    simp

/-- A line end that stands at the offset is the one behind the line. -/
theorem column_eq (hk : ∀ c ∈ (source.drop k).head?, c = '\n') : column = line.length := by
  obtain ⟨rest, hdrop, -⟩ := h.exists_drop_eq
  refine Nat.le_antisymm h.within (Nat.le_of_not_lt fun hlt => ?_)
  rw [hdrop, List.drop_eq_getElem_cons hlt] at hk
  exact (List.forall_mem_cons.1 h.plain).1 (hk _ rfl ▸ List.getElem_mem hlt)

end Located

end Lines

/-! ### The tokens of a text -/

theorem underline_one : underline 1 = ['^'] := rfl

/-- A mark is as wide as what it marks. -/
theorem length_underline {n : Nat} (hn : 0 < n) : (underline n).length = n := by
  rw [underline]
  split
  · exact List.length_replicate
  · rw [List.length_singleton]
    omega

theorem underline_eq {n : Nat} (hn : 0 < n) : underline n = if n = 1 then ['^'] else List.replicate n '~' := by
  rw [underline]
  by_cases hone : n = 1
  · rw [if_neg (by omega), if_pos hone]
  · rw [if_pos (by omega), if_neg hone]

/-- The lexeme of a line end is the line end. -/
theorem LongestLexeme.eq_of_eol {cs w : List Char} (h : LongestLexeme cs .eol w) : w = ['\n'] := by
  generalize htag : Tag.eol = tag at h
  cases h with
  | number => split at htag <;> cases htag
  | word =>
    rw [wordTag] at htag
    split at htag
    · rename_i r hr
      have htags : ∀ r ∈ reservedWords, r.2 ≠ .eol := by decide
      exact absurd htag.symm (htags r (List.mem_of_find?_eq_some hr))
    · split at htag <;> cases htag
  | string | unclosed | relation | unknown => cases htag
  | @mark c _ _ hmark =>
    have hmarks : ∀ m ∈ markTags, m.2 = .eol → m.1 = '\n' := by decide
    obtain rfl : c = '\n' := hmarks _ hmark htag.symm
    rfl

section Tokens

variable {source : List Char} {ts : List Token} {t : Token}

/-- The end of the text is as wide as nothing, every other token stands in front of it. -/
theorem bounds_of_mem_scan (h : scan source = .ok ts) (ht : t ∈ ts) : t.start ≤ t.stop ∧ t.stop ≤ source.length ∧
    (t.tag ≠ .eof → t.start < t.stop) ∧ (t.tag = .eof → t.stop = t.start) := by
  obtain ⟨-, ⟨front, rfl, hbounds, -⟩, -, -⟩ := scan_tiles h
  have hend := endOf_le_length source
  rcases List.mem_append.1 ht with ht | ht
  · obtain ⟨htag, hlt, hstop⟩ := hbounds t ht
    exact ⟨Nat.le_of_lt hlt, Nat.le_trans hstop hend, fun _ => hlt, fun heof => absurd heof htag⟩
  · obtain rfl := List.mem_singleton.1 ht
    exact ⟨Nat.le_refl _, hend, fun heof => absurd rfl heof, fun _ => rfl⟩

/-- The token of a line end is the line end. -/
theorem text_of_eol (h : scan source = .ok ts) (ht : t ∈ ts) (heol : t.tag = .eol) : t.text source = ['\n'] := by
  obtain ⟨-, hlexemes, -⟩ := scan_determined h
  exact (heol ▸ hlexemes t ht (by rw [heol]; nofun)).eq_of_eol

/-- Each token of a text is shown by its line and a mark. The line is one of those that line ends set apart; its number
is that in reports, and it stands in front of the mark. Blanks lead from the start of the line to the mark. Beneath a
token other than a line end and the end of the text the mark is as wide as the token, and what stands above it is the
token: a caret marks a single character and tildes a longer token. A line end is marked by a caret just behind its line,
and the end of the text by a caret in its line or just behind it. -/
theorem scan_marked (h : scan source = .ok ts) (ht : t ∈ ts) :
    ∃ before line after column mark, source.splitOn '\n' = before ++ line :: after ∧
      (source.take t.start).count '\n' = before.length ∧
      t.start = (closedLines before).length + column ∧
      t.marked source = line ++ '\n' :: (List.replicate column ' ' ++ mark ++ ['\n']) ∧
      (∀ e : SyntaxError, ts[e.token]? = some t → e.report source ts =
        "line " ++ toString (before.length + 1) ++ ": error: " ++ e.complaint.explain t.tag ++ "\n" ++
          String.ofList (t.marked source)) ∧
      (t.tag ≠ .eol → t.tag ≠ .eof → t.text source ≠ [] ∧ (line.drop column).take mark.length = t.text source ∧
        mark = if (t.text source).length = 1 then ['^'] else List.replicate (t.text source).length '~') ∧
      (t.tag = .eol → mark = ['^'] ∧ column = line.length) ∧
      (t.tag = .eof → mark = ['^'] ∧ column ≤ line.length) := by
  obtain ⟨-, -, hlines, -⟩ := scan_tiles h
  obtain ⟨hle, hstop, hne, heof⟩ := bounds_of_mem_scan h ht
  obtain ⟨before, line, column, hloc⟩ := exists_located source (Nat.le_trans hle hstop)
  obtain ⟨after, hsplits⟩ := hloc.splits
  have hcount := hloc.count_eq
  have hmarked : Token.marked source ⟨t.tag, t.start, t.start + (t.stop - t.start)⟩ = _ := hloc.marked_eq
  rw [Nat.add_sub_cancel' hle] at hmarked
  have hlength : (t.text source).length = t.stop - t.start := length_between hstop
  refine ⟨before, line, after, column, underline (t.stop - t.start), hsplits, hcount, hloc.offset, hmarked, ?_, ?_, ?_,
    ?_⟩
  · intro e he
    rw [SyntaxError.report, he]
    dsimp only
    rw [lineNumber, hcount]
  · intro heol heof
    -- All tokens but the end have a character, so there is something to mark.
    have hpos : 0 < t.stop - t.start := Nat.sub_pos_of_lt (hne heof)
    refine ⟨List.ne_nil_of_length_pos (hlength ▸ hpos), ?_, ?_⟩
    · rw [length_underline hpos]
      refine hloc.take_drop_eq ?_ fun hline => heol (hlines t ht hline)
      rw [List.length_drop]
      omega
    · rw [hlength]
      exact underline_eq hpos
  · intro heol
    have htext := text_of_eol h ht heol
    rw [htext, List.length_singleton] at hlength
    rw [← hlength]
    refine ⟨underline_one, hloc.column_eq fun c hc => ?_⟩
    obtain ⟨rest, hrest⟩ := List.head?_eq_some_iff.1 (Option.mem_def.1 hc)
    rw [Token.text, hrest, ← hlength, List.take_succ_cons] at htext
    exact (List.cons.inj htext).1
  · intro htag
    rw [heof htag, Nat.sub_self]
    exact ⟨rfl, hloc.within⟩

/-- A remark takes its line end along, so the line behind it may be empty. A word that means nothing is marked as a
whole. -/
theorem scan_marked_remark : ∃ ts, scan "REM A\n\n 1AB".toList = .ok ts ∧
    ⟨.eol, 6, 7⟩ ∈ ts ∧ ⟨.invalid, 9, 11⟩ ∈ ts ∧
    (∃ before line after, "REM A\n\n 1AB".toList.splitOn '\n' = before ++ line :: after ∧ before.length = 1 ∧
      Token.marked "REM A\n\n 1AB".toList ⟨.eol, 6, 7⟩ =
        line ++ '\n' :: (List.replicate line.length ' ' ++ ['^'] ++ ['\n'])) ∧
    ∃ before line after column mark, "REM A\n\n 1AB".toList.splitOn '\n' = before ++ line :: after ∧
      before.length = 2 ∧ Token.marked "REM A\n\n 1AB".toList ⟨.invalid, 9, 11⟩ =
        line ++ '\n' :: (List.replicate column ' ' ++ mark ++ ['\n']) ∧
      (line.drop column).take mark.length = "AB".toList ∧ mark = "~~".toList := by
  have hscan : scan "REM A\n\n 1AB".toList =
      .ok [⟨.eol, 6, 7⟩, ⟨.number, 8, 9⟩, ⟨.invalid, 9, 11⟩, ⟨.eof, 11, 11⟩] := by decide +kernel
  refine ⟨_, hscan, by decide, by decide, ?_, ?_⟩
  · obtain ⟨before, line, after, column, mark, hsplits, hcount, -, hmarked, -, -, heol, -⟩ :=
      scan_marked hscan (t := ⟨.eol, 6, 7⟩) (by decide)
    obtain ⟨rfl, rfl⟩ := heol rfl
    exact ⟨before, line, after, hsplits, hcount.symm, hmarked⟩
  · obtain ⟨before, line, after, column, mark, hsplits, hcount, -, hmarked, -, htext, -⟩ :=
      scan_marked hscan (t := ⟨.invalid, 9, 11⟩) (by decide)
    obtain ⟨-, htake, hmark⟩ := htext nofun nofun
    exact ⟨before, line, after, column, mark, hsplits, hcount.symm, hmarked, htake, hmark⟩

end Tokens

end LineBasic

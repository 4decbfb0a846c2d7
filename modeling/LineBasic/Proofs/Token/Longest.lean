import LineBasic.Proofs.Program.Spacing
import LineBasic.Proofs.Token.Numerals

/-!
# Longest lexemes

What a token is can be told from the characters at its start alone: a run of digits, a run of capital letters, a
string as far as it goes, the longest relational operator, or a single character. The scanner finds this lexeme and
no other one.

## Main definitions

* `LongestRun`: the longest run of characters of a class.
* `HasEnded`: a text that has ended.
* `reservedWords`, `relationSpellings`, `markTags`: how the tokens of the language are written.
* `LongestLexeme`: the lexeme that a text starts with, and its tag.

## Main results

* `longestLexeme_of_lexeme`: what the scanner finds is the longest lexeme.
* `LongestLexeme.eq_of_lexeme`: the longest lexeme is what the scanner finds.
-/

namespace LineBasic

/-- The longest run of characters of a class that a text starts with. -/
def LongestRun (p : Char → Bool) (cs w : List Char) : Prop :=
  (∀ c ∈ w, p c) ∧ ∃ r, cs = w ++ r ∧ ∀ c ∈ r.head?, p c = false

/-- The text has ended: nothing or a NUL is left of it. -/
def HasEnded (cs : List Char) : Prop := ∀ c ∈ cs.head?, c = '\x00'

/-- The words that mean something, with their tags. -/
def reservedWords : List (String × Tag) :=
  [("PRINT", .keyword .print), ("IF", .keyword .if), ("THEN", .keyword .then), ("GOTO", .keyword .goto),
    ("INPUT", .keyword .input), ("LET", .keyword .let), ("GOSUB", .keyword .gosub), ("RETURN", .keyword .return),
    ("CLEAR", .keyword .clear), ("LIST", .keyword .list), ("RUN", .keyword .run), ("END", .keyword .end),
    ("ABS", .builtin .abs), ("RND", .builtin .rnd), ("MOD", .builtin .mod)]

/-- The tag that a word deserves. -/
def wordTag (w : List Char) : Tag :=
  match reservedWords.find? fun r => r.1.toList == w with
  | some r => r.2
  | none => if w.length = 1 then .var else .invalid

/-- The spellings of the relational operators. -/
def relationSpellings : List (List Char × Comparison) :=
  [(['<', '='], .le), (['<', '>'], .ne), (['>', '='], .ge), (['>', '<'], .ne), (['<'], .lt), (['>'], .gt)]

/-- The characters that are tokens by themselves, with their tags. -/
def markTags : List (Char × Tag) :=
  [('\n', .eol), (',', .comma), ('(', .lparen), (')', .rparen), ('=', .comparison .eq), ('+', .sign .plus),
    ('-', .sign .minus), ('*', .scale .times), ('/', .scale .over)]

/-- The lexeme that a text starts with, with the tag that it deserves. A lexeme does not start with a blank or a NUL,
and the word that opens a remark is none. -/
inductive LongestLexeme : (text : List Char) → Tag → (w : List Char) → Prop
  | number {cs w : List Char} (hne : w ≠ []) (hw : LongestRun Char.isDigit cs w) :
      LongestLexeme cs (if Decimal.value w ≤ 32767 then .number else .invalid) w
  | word {cs w : List Char} (hne : w ≠ []) (hw : LongestRun Char.isUpper cs w) (hremark : w ≠ ['R', 'E', 'M']) :
      LongestLexeme cs (wordTag w) w
  | string {cs body : List Char} (hbody : LongestRun isStringChar cs body) (hclosed : cs[body.length]? = some '"') :
      LongestLexeme ('"' :: cs) .string ('"' :: (body ++ ['"']))
  | unclosed {cs body : List Char} (hbody : LongestRun isStringChar cs body) (hopen : cs[body.length]? ≠ some '"') :
      LongestLexeme ('"' :: cs) .invalid ('"' :: body)
  | relation {cs w : List Char} {r : Comparison} (hw : (w, r) ∈ relationSpellings) (hcs : w <+: cs)
      (hlongest : ∀ s ∈ relationSpellings, s.1 <+: cs → s.1.length ≤ w.length) :
      LongestLexeme cs (.comparison r) w
  | mark {c : Char} {t : Tag} (cs : List Char) (hc : (c, t) ∈ markTags) : LongestLexeme (c :: cs) t [c]
  | unknown {c : Char} (cs : List Char) (hmark : ∀ t, (c, t) ∉ markTags)
      (hother : ¬(c.isDigit ∨ c.isUpper ∨ c ∈ ['"', '<', '>'])) (hplain : c ∉ [' ', '\t', '\r', '\x00']) :
      LongestLexeme (c :: cs) .invalid [c]

section Runs

variable {p : Char → Bool} {cs w : List Char}

theorem longestRun_iff : LongestRun p cs w ↔ cs.takeWhile p = w := by
  constructor
  · rintro ⟨hw, r, rfl, hr⟩
    rw [List.takeWhile_append_of_pos hw, List.append_right_eq_self]
    cases r with
    | nil => rfl
    | cons c r => rw [List.takeWhile_cons, hr c rfl, if_neg Bool.false_ne_true]
  · rintro rfl
    refine ⟨List.all_eq_true.1 List.all_takeWhile, cs.dropWhile p, List.takeWhile_append_dropWhile.symm, ?_⟩
    intro c hc
    have hstop := List.head?_dropWhile_not p cs
    rw [Option.mem_def.1 hc] at hstop
    exact hstop

end Runs

/-- A word that means something has its own tag. -/
theorem ofWord_eq (w : List Char) : Tag.ofWord w = wordTag w := by
  have htable : reservedWords = Keyword.all.map (fun k => (k.spelling, .keyword k)) ++
      Builtin.all.map fun f => (f.spelling, .builtin f) := rfl
  rw [Tag.ofWord, wordTag, htable, List.find?_append, List.find?_map, List.find?_map]
  have hkeyword : (fun k : Keyword => k.spelling.toList == w) =
      (fun r : String × Tag => r.1.toList == w) ∘ fun k => (k.spelling, .keyword k) := rfl
  have hbuiltin : (fun f : Builtin => f.spelling.toList == w) =
      (fun r : String × Tag => r.1.toList == w) ∘ fun f => (f.spelling, .builtin f) := rfl
  rw [hkeyword, hbuiltin]
  cases Keyword.all.find? _ with
  | some k => rfl
  | none => cases Builtin.all.find? _ <;> rfl

theorem ofSymbol_cases {c : Char} (hline : c ≠ '\n') :
    (c, Tag.ofSymbol c) ∈ markTags ∨ Tag.ofSymbol c = .invalid ∧ ∀ t, (c, t) ∉ markTags := by
  unfold Tag.ofSymbol
  split
  case h_9 =>
    refine .inr ⟨rfl, fun t ht => ?_⟩
    simp only [markTags, List.mem_cons, Prod.mk.injEq, List.not_mem_nil, or_false] at ht
    tauto
  all_goals exact .inl (by decide)

section Lexemes

variable {cs w : List Char} {tag : Tag} {n : Nat}

/-- A string is closed by the quote behind its characters. -/
theorem quoted_eq (cs : List Char) : quoted cs =
    if cs[(cs.takeWhile isStringChar).length]? = some '"' then (.string, (cs.takeWhile isStringChar).length + 2)
    else (.invalid, (cs.takeWhile isStringChar).length + 1) := by
  rw [← List.head?_drop, quoted]
  split
  · rename_i rest hrest
    rw [hrest]
    rfl
  · rename_i hopen
    rw [if_neg]
    intro hclosed
    obtain ⟨rest, hrest⟩ := List.head?_eq_some_iff.1 hclosed
    exact hopen rest hrest

theorem longestLexeme_quoted (h : quoted cs = (tag, n)) : LongestLexeme ('"' :: cs) tag (('"' :: cs).take n) := by
  have hrun : LongestRun isStringChar cs (cs.takeWhile isStringChar) := longestRun_iff.2 rfl
  rw [quoted_eq] at h
  split at h
  · rename_i hclosed
    cases h
    rw [List.take_succ_cons, List.take_add_one, take_length_takeWhile, hclosed]
    exact .string hrun hclosed
  · rename_i hopen
    cases h
    rw [List.take_succ_cons, take_length_takeWhile]
    exact .unclosed hrun hopen

theorem longestLexeme_two {c d : Char} {r : Comparison} (hw : ([c, d], r) ∈ relationSpellings) (cs : List Char) :
    LongestLexeme (c :: d :: cs) (.comparison r) [c, d] := by
  have hlengths : ∀ s ∈ relationSpellings, s.1.length ≤ 2 := by decide
  exact .relation hw ⟨cs, rfl⟩ fun s hs _ => hlengths s hs

/-- An operator of one character is the longest one if it cannot be carried on. -/
theorem longestLexeme_one {c : Char} {r : Comparison} (hw : ([c], r) ∈ relationSpellings)
    (hnext : ∀ d t, cs = d :: t → ∀ r, ([c, d], r) ∉ relationSpellings) :
    LongestLexeme (c :: cs) (.comparison r) [c] := by
  refine .relation hw ⟨cs, rfl⟩ ?_
  rintro ⟨_ | ⟨c', _ | ⟨d, w⟩⟩, r'⟩ hs hprefix
  · exact Nat.zero_le _
  · exact Nat.le_refl _
  · obtain ⟨rfl, t, rfl⟩ := List.cons_prefix_cons.1 hprefix
    have hlength : w.length = 0 := by
      have hlengths : ∀ s ∈ relationSpellings, s.1.length ≤ 2 := by decide
      simpa using hlengths _ hs
    obtain rfl := List.length_eq_zero_iff.1 hlength
    exact absurd hs (hnext d t rfl r')

theorem mem_relationSpellings_less {d : Char} {r : Comparison} (h : (['<', d], r) ∈ relationSpellings) :
    d = '=' ∨ d = '>' := by
  simp [relationSpellings] at h
  tauto

theorem mem_relationSpellings_greater {d : Char} {r : Comparison} (h : (['>', d], r) ∈ relationSpellings) :
    d = '=' ∨ d = '<' := by
  simp [relationSpellings] at h
  tauto

/-- An operator has one character if none that carries it on stands behind it. -/
theorem symbol_single {d : Char} (hd : d ∉ ['=', '<', '>']) (c : Char) (cs : List Char) :
    symbol (c :: d :: cs) = symbol [c] := by
  have hne : ∀ e ∈ ['=', '<', '>'], ∀ t, d :: cs ≠ e :: t := by
    rintro e he t h
    exact hd ((List.cons.inj h).1 ▸ he)
  by_cases hless : c = '<'
  · subst hless
    exact symbol_less (hne '=' (by decide)) (hne '>' (by decide))
  by_cases hgreater : c = '>'
  · subst hgreater
    exact symbol_greater (hne '=' (by decide)) (hne '<' (by decide))
  · rw [symbol_other hless hgreater, symbol_other hless hgreater]

/-- An operator can be told from two characters. -/
theorem symbol_cons_cons (c d : Char) (r r' : List Char) : symbol (c :: d :: r) = symbol (c :: d :: r') := by
  by_cases hd : d ∈ ['=', '<', '>']
  · by_cases hc : c = '<' ∨ c = '>'
    · simp only [List.mem_cons, List.not_mem_nil, or_false] at hd
      rcases hc with rfl | rfl <;> rcases hd with rfl | rfl | rfl <;> rfl
    · rw [symbol_other (by tauto) (by tauto), symbol_other (by tauto) (by tauto)]
  · rw [symbol_single hd, symbol_single hd]

/-- The relational operator that a text starts with is the longest one. -/
theorem longestLexeme_symbol {c : Char} (hc : c = '<' ∨ c = '>') (h : symbol (c :: cs) = (tag, n)) :
    LongestLexeme (c :: cs) tag ((c :: cs).take n) := by
  unfold symbol at h
  split at h
  case h_1 t heq | h_2 t heq | h_4 t heq | h_5 t heq =>
    cases h
    rw [heq]
    exact longestLexeme_two (by decide) t
  case h_3 t he hg heq =>
    cases h
    cases heq
    -- Neither of the longer operators with this sign in front stands here.
    refine longestLexeme_one (by decide) fun d u hd r hr => ?_
    rcases mem_relationSpellings_less hr with rfl | rfl
    · exact he u hd
    · exact hg u hd
  case h_6 t he hl heq =>
    cases h
    cases heq
    refine longestLexeme_one (by decide) fun d u hd r hr => ?_
    rcases mem_relationSpellings_greater hr with rfl | rfl
    · exact he u hd
    · exact hl u hd
  case h_7 hl _ _ hg heq =>
    cases heq
    exact absurd hc (by tauto)
  case h_8 heq => cases heq

/-- Either nothing is left of a text that has ended, or a NUL stands there. -/
theorem HasEnded.cases (h : HasEnded cs) : cs = [] ∨ ∃ r, cs = '\x00' :: r := by
  cases cs with
  | nil => exact .inl rfl
  | cons c r =>
    cases h c rfl
    exact .inr ⟨r, rfl⟩

/-- At the end of a text only its end is found. -/
theorem lexeme_of_hasEnded (h : HasEnded cs) : lexeme cs = .ok (.eof, 0) := by
  obtain rfl | ⟨r, rfl⟩ := h.cases <;> rfl

/-- What the scanner finds is the longest lexeme. -/
theorem longestLexeme_of_lexeme (h : lexeme cs = .ok (tag, n)) (hends : ¬HasEnded cs) (hgap : gap false cs = 0) :
    LongestLexeme cs tag (cs.take n) := by
  cases cs with
  | nil => exact absurd nofun hends
  | cons c cs =>
    rw [gap] at hgap
    split at hgap
    · cases hgap
    split at hgap
    · cases hgap
    rename_i hblank hremark
    have hnul : c ≠ '\x00' := by
      rintro rfl
      exact hends (by simp [HasEnded])
    -- The tests of the scanner are taken one by one; that all of them fail is needed in the last case.
    rw [lexeme, if_neg hnul] at h
    split at h
    · rename_i hline
      subst hline
      cases h
      exact .mark cs (by decide)
    rename_i hline
    split at h
    · rename_i hdigit
      obtain rfl := tag_of_numeral h
      rw [numeral_length h, take_length_takeWhile]
      exact .number (by simp [hdigit]) (longestRun_iff.2 rfl)
    rename_i hdigit
    split at h
    · rename_i hquote
      subst hquote
      exact longestLexeme_quoted (Except.ok.inj h)
    rename_i hquote
    split at h
    · rename_i hupper
      cases h
      rw [take_length_takeWhile, ofWord_eq]
      refine .word (by simp [hupper]) (longestRun_iff.2 rfl) fun hword => hremark ?_
      rw [startsRemark, hword]
      rfl
    · rename_i hupper
      by_cases hrelation : c = '<' ∨ c = '>'
      · exact longestLexeme_symbol hrelation (Except.ok.inj h)
      · rw [symbol_other (by tauto) (by tauto)] at h
        cases h
        rcases ofSymbol_cases hline with hmark | ⟨hinvalid, hmark⟩
        · exact .mark cs hmark
        · rw [hinvalid]
          refine .unknown cs hmark ?_ ?_
          · simp_all
          · simp_all [isBlank]

theorem symbol_of_mem {r : Comparison} (hw : (w, r) ∈ relationSpellings) (hcs : w <+: cs)
    (hlongest : ∀ s ∈ relationSpellings, s.1 <+: cs → s.1.length ≤ w.length) :
    symbol cs = (.comparison r, w.length) ∧ ∃ c t, cs = c :: t ∧ (c = '<' ∨ c = '>') := by
  obtain ⟨t, rfl⟩ := hcs
  -- A longer operator would have been taken.
  have hshort : ∀ c d r' u, w = [c] → ([c, d], r') ∈ relationSpellings → t ≠ d :: u := by
    rintro c d r' u rfl hr rfl
    exact absurd (hlongest _ hr ⟨u, rfl⟩) (by simp)
  simp only [relationSpellings, List.mem_cons, Prod.mk.injEq, List.not_mem_nil, or_false] at hw
  rcases hw with hw | hw | hw | hw | hw | hw <;> obtain ⟨rfl, rfl⟩ := hw
  case inr.inr.inr.inr.inl =>
    have hless := symbol_less (r := t) (fun u => hshort '<' '=' .le u rfl (by decide))
      fun u => hshort '<' '>' .ne u rfl (by decide)
    exact ⟨hless, _, _, rfl, .inl rfl⟩
  case inr.inr.inr.inr.inr =>
    have hgreater := symbol_greater (r := t) (fun u => hshort '>' '=' .ge u rfl (by decide))
      fun u => hshort '>' '<' .ne u rfl (by decide)
    exact ⟨hgreater, _, _, rfl, .inr rfl⟩
  all_goals exact ⟨rfl, _, _, rfl, by decide⟩

/-- The longest lexeme is what the scanner finds. -/
theorem LongestLexeme.eq_of_lexeme {tag' : Tag} (h : LongestLexeme cs tag w) (hl : lexeme cs = .ok (tag', n)) :
    tag' = tag ∧ n = w.length := by
  cases h with
  | @number _ w hne hw =>
    obtain rfl := longestRun_iff.1 hw
    rw [lexeme_of_digits hne] at hl
    exact ⟨tag_of_numeral hl, numeral_length hl⟩
  | word hne hw hremark =>
    obtain rfl := longestRun_iff.1 hw
    cases cs with
    | nil => exact absurd rfl hne
    | cons c cs =>
      have hupper : c.isUpper := by
        by_contra hc
        exact hne (List.takeWhile_cons_of_neg hc)
      rw [Lexeme.lexeme_of_isUpper hupper] at hl
      cases hl
      exact ⟨ofWord_eq _, rfl⟩
  | @string cs body hbody hclosed =>
    obtain rfl := longestRun_iff.1 hbody
    replace hl : quoted cs = (tag', n) := Except.ok.inj hl
    rw [quoted_eq, if_pos hclosed] at hl
    cases hl
    exact ⟨rfl, by simp⟩
  | @unclosed cs body hbody hopen =>
    obtain rfl := longestRun_iff.1 hbody
    replace hl : quoted cs = (tag', n) := Except.ok.inj hl
    rw [quoted_eq, if_neg hopen] at hl
    cases hl
    exact ⟨rfl, by simp⟩
  | relation hw hcs hlongest =>
    obtain ⟨hsymbol, c, t, rfl, hc⟩ := symbol_of_mem hw hcs hlongest
    have hlexeme : lexeme (c :: t) = .ok (symbol (c :: t)) := by rcases hc with rfl | rfl <;> rfl
    rw [hlexeme, hsymbol] at hl
    cases hl
    exact ⟨rfl, rfl⟩
  | mark cs hc =>
    simp only [markTags, List.mem_cons, Prod.mk.injEq, List.not_mem_nil, or_false] at hc
    rcases hc with hc | hc | hc | hc | hc | hc | hc | hc | hc <;> obtain ⟨rfl, rfl⟩ := hc <;> cases hl <;>
      exact ⟨rfl, rfl⟩
  | @unknown c cs hmark hother hplain =>
    simp only [List.mem_cons, List.not_mem_nil, or_false, not_or] at hother hplain
    -- No other rule applies to the character, so all tests of the scanner fail.
    obtain ⟨hdigit, hupper, hquote, hless, hgreater⟩ := hother
    have hline : c ≠ '\n' := by
      rintro rfl
      exact hmark .eol (by decide)
    rw [lexeme, if_neg hplain.2.2.2, if_neg hline, if_neg hdigit, if_neg hquote, if_neg hupper,
      symbol_other hless hgreater] at hl
    cases hl
    rcases ofSymbol_cases hline with hmem | ⟨hinvalid, -⟩
    · exact absurd hmem (hmark _)
    · exact ⟨hinvalid, rfl⟩

/-- A lexeme ends in front of the end of the text, and a line end belongs to no other lexeme. -/
theorem LongestLexeme.of_mem (h : LongestLexeme cs tag w) {c : Char} (hc : c ∈ w) :
    c ≠ '\x00' ∧ (c = '\n' → tag = .eol) := by
  -- A class of characters contains neither of them.
  have of_class : ∀ {p : Char → Bool}, p c → p '\x00' = false → p '\n' = false →
      c ≠ '\x00' ∧ (c = '\n' → tag = .eol) := fun hp hend hline =>
    ⟨Lexeme.ne_of_class hp hend, fun h => absurd h (Lexeme.ne_of_class hp hline)⟩
  cases h with
  | number _ hw | word _ hw => exact of_class (hw.1 c hc) (by decide) (by decide)
  | string hbody _ =>
    rcases List.mem_cons.1 hc with rfl | hc
    · decide
    rcases List.mem_append.1 hc with hc | hc
    · exact of_class (hbody.1 c hc) (by decide) (by decide)
    · cases List.mem_singleton.1 hc
      decide
  | unclosed hbody _ =>
    rcases List.mem_cons.1 hc with rfl | hc
    · decide
    · exact of_class (hbody.1 c hc) (by decide) (by decide)
  | relation hw _ _ =>
    have hchars : ∀ s ∈ relationSpellings, ∀ c ∈ s.1, c ≠ '\x00' ∧ c ≠ '\n' := by simp [relationSpellings]
    obtain ⟨hend, hline⟩ := hchars _ hw c hc
    exact ⟨hend, fun h => absurd h hline⟩
  | mark cs hmark =>
    cases List.mem_singleton.1 hc
    have hmarks : ∀ m ∈ markTags, m.1 ≠ '\x00' ∧ (m.1 = '\n' → m.2 = .eol) := by decide
    exact hmarks _ hmark
  | unknown cs hmark _ hplain =>
    cases List.mem_singleton.1 hc
    refine ⟨fun h => hplain (by simp [h]), fun h => absurd ?_ (hmark .eol)⟩
    rw [h]
    decide

/-- In front of a longest lexeme there is nothing to skip. -/
theorem LongestLexeme.gap_eq_zero (h : LongestLexeme cs tag w) : gap false cs = 0 := by
  cases h with
  | number hne hw =>
    obtain ⟨hdigits, r, rfl, -⟩ := hw
    obtain ⟨c, w, rfl⟩ := List.exists_cons_of_ne_nil hne
    exact Lexeme.gap_eq_zero_of_isDigit (hdigits c List.mem_cons_self)
  | word hne hw hremark =>
    have hrun := longestRun_iff.1 hw
    obtain ⟨hupper, r, rfl, -⟩ := hw
    obtain ⟨c, w, rfl⟩ := List.exists_cons_of_ne_nil hne
    have hc : c.isUpper := hupper c List.mem_cons_self
    rw [List.cons_append] at hrun ⊢
    refine Lexeme.gap_eq_zero (Lexeme.isBlank_eq_false hc (by decide) (by decide) (by decide)) ?_
    rw [startsRemark, hrun]
    exact decide_eq_false hremark
  | string | unclosed => exact Lexeme.gap_eq_zero (by decide) (Lexeme.startsRemark_eq_false (by decide))
  | relation hw hcs hlongest =>
    obtain ⟨-, c, t, rfl, rfl | rfl⟩ := symbol_of_mem hw hcs hlongest <;>
      exact Lexeme.gap_eq_zero (by decide) (Lexeme.startsRemark_eq_false (by decide))
  | mark cs hmark =>
    have hmarks : ∀ m ∈ markTags, isBlank m.1 = false ∧ m.1.isUpper = false := by decide
    obtain ⟨hblank, hupper⟩ := hmarks _ hmark
    exact Lexeme.gap_eq_zero hblank (Lexeme.startsRemark_eq_false hupper)
  | unknown cs _ hother hplain =>
    simp only [List.mem_cons, List.not_mem_nil, or_false, not_or] at hother hplain
    refine Lexeme.gap_eq_zero ?_ (Lexeme.startsRemark_eq_false (Bool.eq_false_iff.2 hother.2.1))
    simp [isBlank, hplain]

/-- A longest lexeme is not empty. -/
theorem LongestLexeme.ne_nil (h : LongestLexeme cs tag w) : w ≠ [] := by
  cases h with
  | number hne _ | word hne _ _ => exact hne
  | relation hw _ _ =>
    rintro rfl
    simp [relationSpellings] at hw
  | string | unclosed | mark | unknown => exact List.cons_ne_nil _ _

/-- The end of a text is no lexeme. -/
theorem LongestLexeme.tag_ne_eof (h : LongestLexeme cs tag w) : tag ≠ .eof := by
  cases h with
  | number => split <;> exact nofun
  | word =>
    rw [wordTag]
    split
    · rename_i r hr
      have htags : ∀ r ∈ reservedWords, r.2 ≠ .eof := by decide
      exact htags r (List.mem_of_find?_eq_some hr)
    · split <;> exact nofun
  | mark _ hmark =>
    have htags : ∀ m ∈ markTags, m.2 ≠ .eof := by decide
    exact htags _ hmark
  | string | unclosed | relation | unknown => exact nofun

/-- The longest lexeme is found unless it has too many digits. -/
theorem LongestLexeme.lexeme_eq (h : LongestLexeme cs tag w)
    (hshort : (cs.takeWhile Char.isDigit).length ≤ maxDigits) : lexeme cs = .ok (tag, w.length) := by
  cases hl : lexeme cs with
  | error e => exact absurd (lexeme_eq_error_iff.1 hl) (Nat.not_lt.2 hshort)
  | ok r =>
    obtain ⟨tag', n⟩ := r
    obtain ⟨rfl, rfl⟩ := h.eq_of_lexeme hl
    rfl

/-- A text that starts with its longest lexeme. -/
theorem Words.longest {r : List Char} {ws : List Lexeme} (h : LongestLexeme (w ++ r) tag w)
    (hshort : ((w ++ r).takeWhile Char.isDigit).length ≤ maxDigits) (hws : Words r ws) :
    Words (w ++ r) ((tag, w) :: ws) :=
  .word h.gap_eq_zero (h.lexeme_eq hshort) h.tag_ne_eof hws

end Lexemes

end LineBasic

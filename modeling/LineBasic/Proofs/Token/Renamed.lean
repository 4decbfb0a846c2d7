import LineBasic.Proofs.Token.Tiling

/-!
# Other letters for the variables

The letter of a variable is a run of capital letters of length one. With another letter in its place it is still such a
run: it joins no neighbour, it is no keyword and it opens no remark. So a text in which the variables have other letters
has the same tokens at the same offsets.

## Main definitions

* `Akin`: equal characters, or two capital letters.
* `Lexeme.renamed`: a lexeme with other letters for the variables.
* `renamedText`: a text with other letters at its variables.

## Main results

* `lexeme_alike`: texts that are alike start with lexemes of the same tag and length if their words agree.
* `Scanner.Scans.renamed`: what is scanned from an offset on.
* `scan_renamedText`: the tokens of a text stay the same, and only the variables are written differently.
-/

namespace LineBasic

/-- The characters are equal, or both of them are capital letters. Texts are alike if their characters are akin. -/
def Akin (c c' : Char) : Prop := c' = c ∨ c.isUpper ∧ c'.isUpper

/-- The words that two texts start with are equal, or both are a single letter. -/
def WordsAgree (cs cs' : List Char) : Prop :=
  cs'.takeWhile Char.isUpper = cs.takeWhile Char.isUpper ∨
    (cs.takeWhile Char.isUpper).length = 1 ∧ (cs'.takeWhile Char.isUpper).length = 1

/-- A character with another letter for the variable that it names. -/
def renamedChar (f : Letter → Letter) (c : Char) : Char := (Letter.ofChar? c).elim c fun v => (f v).char

/-- A lexeme with another letter if it is a variable. -/
def Lexeme.renamed (f : Letter → Letter) (w : Lexeme) : Lexeme :=
  if w.1 = .var then (w.1, w.2.map (renamedChar f)) else w

/-- What stands from an offset on, with other letters at those tokens that are variables. What is between the tokens and
behind the last one stays. -/
def renamedFrom (f : Letter → Letter) (source : List Char) : Nat → List Token → List Char
  | k, [] => source.drop k
  | k, t :: ts =>
    between source k t.start ++
      ((Lexeme.renamed f (t.tag, t.text source)).2 ++ renamedFrom f source t.stop ts)

/-- A text with other letters at its variables. -/
def renamedText (f : Letter → Letter) (tokens : List Token) (source : List Char) : List Char :=
  renamedFrom f source 0 tokens

/-! ### Texts that are alike -/

section Alike

variable {c c' : Char} {cs cs' : List Char} {p : Char → Bool}

theorem Akin.refl (c : Char) : Akin c c := .inl rfl

theorem Akin.class_eq (h : Akin c c') (hp : ∀ d, d.isUpper → p d = false) : p c' = p c := by
  rcases h with rfl | ⟨hc, hc'⟩
  · rfl
  · rw [hp c hc, hp c' hc']

theorem Akin.isUpper_eq (h : Akin c c') : c'.isUpper = c.isUpper := by
  rcases h with rfl | ⟨hc, hc'⟩
  · rfl
  · rw [hc, hc']

theorem isStringChar_of_isUpper (hc : c.isUpper) : isStringChar c := by
  obtain ⟨v, rfl⟩ := Letter.exists_char_eq hc
  revert v
  decide

theorem Akin.isStringChar_eq (h : Akin c c') : isStringChar c' = isStringChar c := by
  rcases h with rfl | ⟨hc, hc'⟩
  · rfl
  · rw [isStringChar_of_isUpper hc, isStringChar_of_isUpper hc']

theorem Akin.isBlank_eq (h : Akin c c') : isBlank c' = isBlank c :=
  h.class_eq fun _ hd => Lexeme.isBlank_eq_false hd (by decide) (by decide) (by decide)

theorem alike_refl (cs : List Char) : List.Forall₂ Akin cs cs := List.forall₂_same.2 fun c _ => .refl c

/-- Runs of a class that capital letters belong to altogether or not at all are alike. -/
theorem takeWhile_alike (h : List.Forall₂ Akin cs cs') (hp : ∀ c c', Akin c c' → p c' = p c) :
    List.Forall₂ Akin (cs.takeWhile p) (cs'.takeWhile p) := by
  induction h with
  | nil => exact .nil
  | @cons c c' cs cs' hc _ ih =>
    rw [List.takeWhile_cons, List.takeWhile_cons, hp c c' hc]
    split
    · exact .cons hc ih
    · exact .nil

theorem length_takeWhile_alike (h : List.Forall₂ Akin cs cs') (hp : ∀ c c', Akin c c' → p c' = p c) :
    (cs'.takeWhile p).length = (cs.takeWhile p).length :=
  (takeWhile_alike h hp).length_eq.symm

/-- A run of a class that no capital letter belongs to is the same. -/
theorem takeWhile_eq_of_alike (h : List.Forall₂ Akin cs cs') (hp : ∀ d, d.isUpper → p d = false) :
    cs'.takeWhile p = cs.takeWhile p := by
  induction h with
  | nil => rfl
  | @cons c c' cs cs' hc _ ih =>
    rw [List.takeWhile_cons, List.takeWhile_cons, hc.class_eq hp]
    split
    · rename_i hpc
      rcases hc with rfl | ⟨hupper, -⟩
      · rw [ih]
      · rw [hp c hupper] at hpc
        cases hpc
    · rfl

theorem getElem?_eq_of_alike {i : Nat} (h : List.Forall₂ Akin cs cs') (hc : c.isUpper = false) :
    cs'[i]? = some c ↔ cs[i]? = some c := by
  induction h generalizing i with
  | nil => rfl
  | @cons d d' cs cs' hd _ ih =>
    cases i with
    | zero =>
      rw [List.getElem?_cons_zero, List.getElem?_cons_zero]
      rcases hd with rfl | ⟨hd, hd'⟩
      · rfl
      · have hne : d ≠ c := Lexeme.ne_of_class hd hc
        have hne' : d' ≠ c := Lexeme.ne_of_class hd' hc
        simp [hne, hne']
    | succ i => exact ih

theorem quoted_alike (h : List.Forall₂ Akin cs cs') : quoted cs' = quoted cs := by
  have hlength := length_takeWhile_alike h fun _ _ => Akin.isStringChar_eq
  rw [quoted_eq, quoted_eq, hlength]
  simp only [getElem?_eq_of_alike h (by decide : '"'.isUpper = false)]

theorem symbol_alike (h : List.Forall₂ Akin cs cs') (c : Char) : symbol (c :: cs') = symbol (c :: cs) := by
  have hupper : ∀ d : Char, d.isUpper → d ∉ ['=', '<', '>'] := by
    intro d hd hmem
    simp only [List.mem_cons, List.not_mem_nil, or_false] at hmem
    rcases hmem with rfl | rfl | rfl <;> cases hd
  cases h with
  | nil => rfl
  | cons hd _ =>
    rcases hd with rfl | ⟨hd, hd'⟩
    · exact symbol_cons_cons c _ _ _
    · rw [symbol_single (hupper _ hd), symbol_single (hupper _ hd')]

/-- A word of one letter is a variable. -/
theorem ofWord_of_length {w : List Char} (h : w.length = 1) : Tag.ofWord w = .var := by
  have hlong : ∀ r ∈ reservedWords, r.1.toList.length ≠ 1 := by decide
  rw [ofWord_eq, wordTag, List.find?_eq_none.2, if_pos h]
  intro r hr heq
  refine hlong r hr ?_
  rw [eq_of_beq heq, h]

theorem WordsAgree.ofWord_eq (h : WordsAgree cs cs') :
    Tag.ofWord (cs'.takeWhile Char.isUpper) = Tag.ofWord (cs.takeWhile Char.isUpper) := by
  rcases h with h | ⟨h, h'⟩
  · rw [h]
  · rw [ofWord_of_length h, ofWord_of_length h']

theorem WordsAgree.startsRemark_eq (h : WordsAgree cs cs') : startsRemark cs' = startsRemark cs := by
  rw [startsRemark, startsRemark]
  rcases h with h | ⟨h, h'⟩
  · rw [h]
  · have hne : ∀ w : List Char, w.length = 1 → w ≠ ['R', 'E', 'M'] := by
      rintro w hw rfl
      cases hw
    rw [decide_eq_false (hne _ h), decide_eq_false (hne _ h')]

/-- Texts that are alike start with lexemes of the same tag and length if their words agree. -/
theorem lexeme_alike (h : List.Forall₂ Akin cs cs') (hwords : WordsAgree cs cs') : lexeme cs' = lexeme cs := by
  cases h with
  | nil => rfl
  | @cons c c' cs cs' hc hcs =>
    by_cases hupper : c.isUpper
    · have hupper' : c'.isUpper := hc.isUpper_eq.trans hupper
      rw [Lexeme.lexeme_of_isUpper hupper, Lexeme.lexeme_of_isUpper hupper', hwords.ofWord_eq,
        length_takeWhile_alike (.cons hc hcs) fun _ _ => Akin.isUpper_eq]
    · obtain rfl : c' = c := hc.resolve_right fun h => hupper h.1
      rw [lexeme, lexeme, if_neg hupper, if_neg hupper, quoted_alike hcs, symbol_alike hcs,
        takeWhile_eq_of_alike (.cons hc hcs) fun _ => Lexeme.isDigit_eq_false_of_isUpper]

/-- If there is nothing to skip in a text, there is nothing to skip in one that is alike and has a word that agrees. -/
theorem gap_eq_zero_of_alike (h : List.Forall₂ Akin cs cs') (hwords : WordsAgree cs cs') (hgap : gap false cs = 0) :
    gap false cs' = 0 := by
  have hremark := hwords.startsRemark_eq
  cases h with
  | nil => rfl
  | @cons c c' cs cs' hc hcs =>
    rw [gap] at hgap
    split at hgap
    · cases hgap
    split at hgap
    · cases hgap
    rename_i hblank hopens
    refine Lexeme.gap_eq_zero ?_ ?_
    · rw [hc.isBlank_eq]
      exact Bool.eq_false_iff.2 hblank
    · rw [hremark]
      exact Bool.eq_false_iff.2 hopens

end Alike

/-! ### One token -/

section Lexeme

variable {f : Letter → Letter} {w r r' : List Char} {tag : Tag}

theorem renamedChar_char (f : Letter → Letter) (v : Letter) : renamedChar f v.char = (f v).char := by
  rw [renamedChar, Letter.ofChar?_char]
  rfl

theorem Letter.isUpper_char (v : Letter) : v.char.isUpper := by
  revert v
  decide

/-- A lexeme that is no variable stays, and a variable is a single letter that becomes another one. -/
theorem renamed_cases (h : lexeme (w ++ r) = .ok (tag, w.length)) :
    tag ≠ .var ∧ (Lexeme.renamed f (tag, w)).2 = w ∨
      tag = .var ∧ ∃ v : Letter, w = [v.char] ∧ (Lexeme.renamed f (tag, w)).2 = [(f v).char] := by
  by_cases htag : tag = .var
  · subst htag
    obtain ⟨c, hw, hc⟩ := take_of_lexeme_var h
    obtain ⟨v, rfl⟩ := Letter.exists_char_eq hc
    rw [List.take_left] at hw
    subst hw
    exact .inr ⟨rfl, v, rfl, by simp [Lexeme.renamed, renamedChar_char]⟩
  · exact .inl ⟨htag, by rw [Lexeme.renamed, if_neg htag]⟩

theorem renamed_alike (h : lexeme (w ++ r) = .ok (tag, w.length)) :
    List.Forall₂ Akin w (Lexeme.renamed f (tag, w)).2 := by
  rcases renamed_cases (f := f) h with ⟨-, hw⟩ | ⟨-, v, rfl, hw⟩
  · rw [hw]
    exact alike_refl w
  · rw [hw]
    exact .cons (.inr ⟨v.isUpper_char, (f v).isUpper_char⟩) .nil

/-- The word that a text starts with is its first lexeme, unless it is empty. -/
theorem takeWhile_of_lexeme (h : lexeme (w ++ r) = .ok (tag, w.length)) :
    (w ++ r).takeWhile Char.isUpper = [] ∨ (w ++ r).takeWhile Char.isUpper = w := by
  cases hcs : w ++ r with
  | nil => exact .inl rfl
  | cons c cs =>
    by_cases hupper : c.isUpper
    · right
      rw [hcs, Lexeme.lexeme_of_isUpper hupper, ← hcs] at h
      exact hcs ▸ takeWhile_eq_of_length (Prod.mk.inj (Except.ok.inj h)).2
    · exact .inl (List.takeWhile_cons_of_neg hupper)

/-- A lexeme with another letter is the word that it was. -/
theorem wordsAgree_renamed (h : lexeme (w ++ r) = .ok (tag, w.length)) (hr : List.Forall₂ Akin r r') :
    WordsAgree (w ++ r) ((Lexeme.renamed f (tag, w)).2 ++ r') := by
  have hlength := length_takeWhile_alike (List.rel_append (renamed_alike (f := f) h) hr) fun _ _ => Akin.isUpper_eq
  rcases takeWhile_of_lexeme h with hword | hword
  · rw [hword] at hlength
    exact .inl (by rw [hword, List.length_eq_zero_iff.1 hlength])
  · rw [hword] at hlength
    rcases renamed_cases (f := f) h with ⟨-, hw⟩ | ⟨-, v, rfl, -⟩
    · rw [hw] at hlength ⊢
      exact .inl (by rw [hword, takeWhile_eq_of_length hlength])
    · exact .inr ⟨by rw [hword]; rfl, hlength⟩

end Lexeme

/-! ### The tokens of a text -/

section Tokens

variable {f : Letter → Letter} {source source' : List Char} {k : Nat} {t : Token} {ts : List Token}

theorem Token.text_eq_of_drop {w r : List Char} (h : source.drop t.start = w ++ r)
    (hlength : t.stop = t.start + w.length) : t.text source = w := by
  rw [text, h, hlength, Nat.add_sub_cancel_left, List.take_left]

theorem lexemesOf_cons (source : List Char) (t : Token) (ts : List Token) :
    lexemesOf source (t :: ts) = (t.tag, t.text source) :: lexemesOf source ts := rfl

theorem Lexeme.renamed_fst (f : Letter → Letter) (w : Lexeme) : (renamed f w).1 = w.1 := by
  rw [renamed]
  split
  · rfl
  · rfl

/-- The next token of a text, with what stands in front of it and behind it. -/
theorem Scanner.exists_append_of_next {s : Scanner} (h : (place source k).next = .ok (t, s)) (ht : t.tag ≠ .eof) :
    ∃ g w r, source.drop k = g ++ (w ++ r) ∧ Passes false g ∧ t.start = k + g.length ∧
      t.stop = k + g.length + w.length ∧ lexeme (w ++ r) = .ok (t.tag, w.length) ∧ gap false (w ++ r) = 0 ∧
      s = place source t.stop := by
  obtain ⟨n, hl, hstart, hstop, hs⟩ := next_place_eq_ok_iff.1 h
  rw [← List.drop_drop] at hl
  have hskipped := gap_drop_gap false (source.drop k)
  obtain ⟨g, w, r, hcs, hg, hgap, rfl⟩ := exists_append_of_lexeme hl ht
  rw [← hgap] at hl hstart hskipped
  rw [hcs, List.drop_left] at hl hskipped
  exact ⟨g, w, r, hcs, hg, hstart, by rw [hstop, hstart], hl, hskipped, hs⟩

/-- What stands behind two parts of a text. -/
theorem drop_append_append {g w r : List Char} (h : source.drop k = g ++ (w ++ r)) :
    source.drop (k + g.length) = w ++ r ∧ source.drop (k + g.length + w.length) = r := by
  have hw : source.drop (k + g.length) = w ++ r := by rw [← List.drop_drop, h, List.drop_left]
  exact ⟨hw, by rw [← List.drop_drop, hw, List.drop_left]⟩

/-- A text in which the next lexeme has another letter, and that goes on alike, has the same next token. -/
theorem Scanner.next_renamed {g w r r' : List Char}
    (hs : source'.drop k = g ++ ((Lexeme.renamed f (t.tag, w)).2 ++ r')) (hg : Passes false g)
    (hstart : t.start = k + g.length) (hstop : t.stop = k + g.length + w.length)
    (hl : LineBasic.lexeme (w ++ r) = .ok (t.tag, w.length)) (hgap : gap false (w ++ r) = 0)
    (hr : List.Forall₂ Akin r r') :
    (place source' k).next = .ok (t, place source' t.stop) ∧ t.text source' = (Lexeme.renamed f (t.tag, w)).2 := by
  have hw := renamed_alike (f := f) hl
  have hwords := wordsAgree_renamed (f := f) hl hr
  have halike : List.Forall₂ Akin (w ++ r) ((Lexeme.renamed f (t.tag, w)).2 ++ r') := List.rel_append hw hr
  obtain ⟨hdrop, -⟩ := drop_append_append hs
  have hskipped : gap false (source'.drop k) = g.length := by
    rw [hs, hg, gap_eq_zero_of_alike halike hwords hgap, Nat.add_zero]
  have hlength : t.stop = t.start + w.length := by rw [hstop, hstart]
  refine ⟨next_place_eq_ok_iff.2 ⟨w.length, ?_, ?_, hlength, rfl⟩, Token.text_eq_of_drop (hstart ▸ hdrop) ?_⟩
  · rw [hskipped, hdrop, lexeme_alike halike hwords, hl]
  · rw [hskipped, hstart]
  · rw [hlength, hw.length_eq]

/-- A text that has other letters at its variables has the same tokens from an offset on, and is alike. -/
theorem Scanner.Scans.renamed (h : (place source k).Scans ts) (hs : source'.drop k = renamedFrom f source k ts) :
    (place source' k).Scans ts ∧ lexemesOf source' ts = (lexemesOf source ts).map (Lexeme.renamed f) ∧
      List.Forall₂ Akin (source.drop k) (source'.drop k) := by
  generalize hplace : place source k = s at h
  induction h generalizing k with
  | @last s s' t h ht =>
    subst hplace
    obtain ⟨n, -, hstart, hstop, -⟩ := next_place_eq_ok_iff.1 h
    have hle : k ≤ t.start := hstart ▸ Nat.le_add_right _ _
    -- Nothing is replaced behind the last token or at it.
    have hsame : source'.drop k = source.drop k := by
      rw [hs, renamedFrom, renamedFrom, Lexeme.renamed, if_neg (by simp [ht]), Token.text, ← between,
        between_append_drop (by omega), between_append_drop hle]
    have hplace : place source' k = place source k := by rw [place, place, hsame]
    have htext : t.text source' = t.text source := by
      obtain ⟨d, hd⟩ := Nat.exists_eq_add_of_le hle
      rw [Token.text, Token.text, hd, ← List.drop_drop, ← List.drop_drop, hsame]
    refine ⟨hplace ▸ .last h ht, ?_, hsame ▸ alike_refl _⟩
    rw [lexemesOf_cons, lexemesOf_cons, List.map_cons, htext, Lexeme.renamed, if_neg (by simp [ht])]
    rfl
  | @more s s' t ts h ht _ ih =>
    subst hplace
    obtain ⟨g, w, r, hcs, hg, hstart, hstop, hl, hgap, rfl⟩ := exists_append_of_next h ht
    obtain ⟨hdrop, hrest⟩ := drop_append_append hcs
    have htext : t.text source = w := Token.text_eq_of_drop (hstart ▸ hdrop) (by rw [hstop, hstart])
    have hbetween : between source k t.start = g := by
      rw [between, hcs, hstart, Nat.add_sub_cancel_left, List.take_left]
    rw [renamedFrom, hbetween, htext] at hs
    have hw := renamed_alike (f := f) hl
    have hrest' := (drop_append_append hs).2
    rw [← hw.length_eq, ← hstop] at hrest'
    rw [← hstop] at hrest
    obtain ⟨hscans, hlexemes, hr⟩ := ih hrest' rfl
    rw [hrest, hrest'] at hr
    obtain ⟨hnext, htext'⟩ := next_renamed hs hg hstart hstop hl hgap hr
    refine ⟨.more hnext ht hscans, ?_, ?_⟩
    · rw [lexemesOf_cons, lexemesOf_cons, List.map_cons, hlexemes, htext, htext']
      exact congrArg (· :: _) (Prod.ext (Lexeme.renamed_fst f (t.tag, w)).symm rfl)
    · rw [hcs, hs]
      exact List.rel_append (alike_refl g) (List.rel_append hw hr)

/-- A text with other letters at its variables has the same tokens. Only the variables are written differently. -/
theorem scan_renamedText (f : Letter → Letter) (h : scan source = .ok ts) :
    scan (renamedText f ts source) = .ok ts ∧
      lexemesOf (renamedText f ts source) ts = (lexemesOf source ts).map (Lexeme.renamed f) := by
  have hscans : (Scanner.place source 0).Scans ts := Scanner.scans_of_tokens h
  have hrest : (renamedText f ts source).drop 0 = renamedFrom f source 0 ts := rfl
  obtain ⟨hscans', hlexemes, -⟩ := hscans.renamed hrest
  exact ⟨Scanner.tokens_of_scans hscans', hlexemes⟩

end Tokens

end LineBasic

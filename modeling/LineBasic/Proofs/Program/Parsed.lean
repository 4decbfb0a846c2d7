import LineBasic.Proofs.Program.Meaning

/-!
# Parsed programs

A source text is a program exactly if its tokens in front of the end spell one. The lexemes of its tokens are
sound, so the tree that they spell has one plain tree.

## Main definitions

* `Program.lexemes`: the tags and the texts of the tokens.
* `Program.DerivedFrom`: the program has the tokens of its source and the arena of the lines that they spell.
* `Program.Means`: the plain lines of a program.

## Main results

* `Grammar.parse_accepts_exactly`: what the parser accepts, and that nothing invalid is accepted.
* `Program.parse_eq_ok_iff`: what becomes of a source text.
* `Program.DerivedFrom.exists_means`, `Program.Means.unique`: a parsed program has one list of plain lines.
-/

namespace LineBasic

/-- The lexemes of tokens. -/
def lexemesOf (source : List Char) (tokens : List Token) : List Lexeme :=
  tokens.map fun t => (t.tag, t.text source)

/-- The lexemes of the tokens of a program. -/
def Program.lexemes (p : Program) : List Lexeme := lexemesOf p.source p.tokens.toList

/-- What passes a test is there. -/
theorem exists_ok_of_any {ε α : Type} {r : Except ε α} {test : α → Bool} (h : r.toOption.any test = true) :
    ∃ a, r = .ok a ∧ test a = true := by
  cases r with
  | error => cases h
  | ok a => exact ⟨a, rfl, h⟩

theorem Letter.exists_char_eq {c : Char} (h : c.isUpper) : ∃ v : Letter, v.char = c := by
  have hc : 65 ≤ c.toNat ∧ c.toNat ≤ 90 := by
    obtain ⟨h₁, h₂⟩ := of_decide_eq_true h
    exact ⟨UInt32.le_iff_toNat_le.1 h₁, UInt32.le_iff_toNat_le.1 h₂⟩
  refine ⟨⟨c.toNat - 65, ?_⟩, ?_⟩
  · rw [letterCount]
    omega
  · have h65 : 'A'.toNat + (c.toNat - 65) = c.toNat := by
      show 65 + (c.toNat - 65) = c.toNat
      omega
    rw [Letter.char, h65, Char.ofNat_toNat]

/-- The lexemes of a text are sound. -/
theorem sound_of_mem_lexemesOf {source : List Char} {tokens : List Token} (h : scan source = .ok tokens)
    {w : Lexeme} (hw : w ∈ lexemesOf source tokens) : w.Sound := by
  obtain ⟨t, ht, rfl⟩ := List.mem_map.1 hw
  obtain ⟨-, hl⟩ := lexeme_of_mem_scan h ht
  constructor
  · intro htag
    rw [show t.tag = .var from htag] at hl
    obtain ⟨c, hc, hupper⟩ := take_of_lexeme_var hl
    obtain ⟨v, rfl⟩ := Letter.exists_char_eq hupper
    exact ⟨v, Prod.ext htag hc⟩
  · intro htag
    rw [show t.tag = .number from htag] at hl
    obtain ⟨hne, hdigits, hle⟩ := take_of_lexeme_number hl
    exact ⟨⟨_, Nat.lt_succ_of_le hle⟩, htag, if_pos ⟨hne, hdigits⟩⟩
  · intro htag
    rw [show t.tag = .string from htag] at hl
    obtain ⟨body, hbody, hall⟩ := take_of_lexeme_string hl
    exact ⟨⟨body, hall⟩, Prod.ext htag hbody⟩

theorem leavesOf_lexemesOf {source : List Char} {front rest : List Token}
    (h : scan source = .ok (front ++ rest)) :
    LeavesOf (lexemesOf source (front ++ rest)) (leavesOf (front.map Token.tag)) := by
  intro l hl
  obtain ⟨hi, hi'⟩ := List.mem_zipIdx' hl
  rw [List.length_map] at hi
  have hget : (lexemesOf source (front ++ rest))[l.2]? = some (front[l.2].tag, front[l.2].text source) := by
    rw [lexemesOf, List.getElem?_map, List.getElem?_append_left hi, List.getElem?_eq_getElem hi]
    rfl
  refine ⟨_, hget, ?_, sound_of_mem_lexemesOf h (List.mem_of_getElem? hget)⟩
  rw [hi', List.getElem_map]
  rfl

namespace Program

variable {source : List Char} {p : Program}

theorem parse_of_scan {tokens : List Token} (h : scan source = .ok tokens) :
    Program.parse source = (ofTokens source tokens).mapError (.parse tokens) := by
  rw [Program.parse, h]

/-- The tokens of the source, in front of its end, spell lines whose arena the program has. -/
def DerivedFrom (p : Program) (lines : List ParsedLine) : Prop :=
  ∃ front eof, scan p.source = .ok (front ++ [eof]) ∧ p.tokens = (front ++ [eof]).toArray ∧
    Grammar.Derives (front.map Token.tag) lines ∧ p.arena = Arena.ofLines lines

/-- A text is a program exactly if its tokens spell one. -/
theorem parse_eq_ok_iff : Program.parse source = .ok p ↔ p.source = source ∧ ∃ lines, p.DerivedFrom lines := by
  obtain ⟨text, tokens, arena⟩ := p
  simp only [Program.parse, DerivedFrom]
  constructor
  · intro h
    split at h
    · cases h
    · rename_i ts hscan
      obtain ⟨front, eof, rfl, heof, hfront⟩ := (Scanner.scans_of_tokens hscan).eof
      rw [ofTokens] at h
      cases hparse : Grammar.parse ((front ++ [eof]).map Token.tag) with
      | error e =>
        rw [hparse] at h
        cases h
      | ok lines =>
        rw [hparse] at h
        cases h
        refine ⟨rfl, lines, front, eof, hscan, rfl, ?_, rfl⟩
        -- The grammar stops at the first end of the text, and the scanner gives only one.
        obtain ⟨front', rest, htags, -, hlines⟩ := Grammar.parse_eq_ok_iff.1 hparse
        have hnot : Tag.eof ∉ front.map Token.tag := by
          rintro hmem
          obtain ⟨u, hu, hut⟩ := List.mem_map.1 hmem
          exact hfront u hu hut
        rw [List.map_append, List.map_singleton, heof] at htags
        obtain ⟨rfl, -⟩ := (List.append_cons_inj_of_notMem hnot (by simp)).1 htags
        exact hlines
  · rintro ⟨rfl, lines, front, eof, hscan, rfl, hlines, rfl⟩
    obtain ⟨front', eof', hsplit, heof, -⟩ := (Scanner.scans_of_tokens hscan).eof
    obtain ⟨rfl, rfl⟩ : front = front' ∧ eof = eof' := by simpa using List.append_inj' hsplit rfl
    have hparse := hlines.parse_eq []
    rw [hscan]
    dsimp only
    rw [ofTokens, List.map_append, List.map_singleton, heof, hparse]
    rfl

/-- A text with a test, a call and a string. -/
def sample : List Char := "10 IF A<MOD(7,3) THEN PRINT \"A\", -A*2\n20 GOSUB 10\n".toList

theorem exists_parse_sample : ∃ p, Program.parse sample = .ok p := by
  have hok : (Program.parse sample).isOk = true := by decide +kernel
  cases hp : Program.parse sample with
  | error e =>
    rw [hp] at hok
    cases hok
  | ok p => exact ⟨p, rfl⟩

/-- The program has the tokens of its source and the arena of the lines that they spell, and these lines mean the
given plain lines. -/
def Means (p : Program) (clauses : List Clause) : Prop :=
  ∃ lines, p.DerivedFrom lines ∧ List.Forall₂ (Clause.MeantBy p.lexemes) lines clauses

/-- The lines of a parsed program have plain lines. -/
theorem DerivedFrom.exists_means {lines : List ParsedLine} (h : p.DerivedFrom lines) :
    ∃ clauses, p.Means clauses := by
  obtain ⟨front, eof, hscan, htokens, hlines, -⟩ := id h
  obtain ⟨clauses, hclauses⟩ := hlines.1.exists_means (leavesOf_lexemesOf hscan)
  refine ⟨clauses, lines, h, ?_⟩
  rw [lexemes, htokens]
  exact hclauses

theorem DerivedFrom.unique {lines lines' : List ParsedLine} (h : p.DerivedFrom lines)
    (h' : p.DerivedFrom lines') : lines = lines' := by
  obtain ⟨front, eof, hscan, -, hlines, -⟩ := h
  obtain ⟨front', eof', hscan', -, hlines', -⟩ := h'
  rw [hscan] at hscan'
  obtain ⟨rfl, -⟩ := List.append_inj' (Except.ok.inj hscan') rfl
  exact hlines.unique hlines'

/-- A program means one list of plain lines only. -/
theorem Means.unique {clauses clauses' : List Clause} (h : p.Means clauses) (h' : p.Means clauses') :
    clauses = clauses' := by
  obtain ⟨lines, hlines, hclauses⟩ := h
  obtain ⟨lines', hlines', hclauses'⟩ := h'
  obtain rfl := hlines.unique hlines'
  exact List.right_unique_forall₂' (fun _ _ _ h h' => h.unique h') hclauses hclauses'

/-- The plain lines of a program keep to the limit on nesting. -/
theorem Means.nesting_le {clauses : List Clause} (h : p.Means clauses) :
    ∀ c ∈ clauses, c.line.body.nesting ≤ Grammar.maxNesting := by
  obtain ⟨lines, ⟨front, eof, -, -, ⟨-, hnesting⟩, -⟩, hclauses⟩ := h
  induction hclauses with
  | nil => simp
  | cons hc _ ih =>
    obtain ⟨hline, hlines⟩ := List.forall_mem_cons.1 hnesting
    exact List.forall_mem_cons.2 ⟨hc.1.nesting ▸ hline, ih hlines⟩

theorem DerivedFrom.tag_ne_invalid {lines : List ParsedLine} (h : p.DerivedFrom lines) {t : Token}
    (ht : t ∈ p.tokens) : t.tag ≠ .invalid := by
  obtain ⟨front, eof, hscan, htokens, hlines, -⟩ := h
  obtain ⟨front', eof', hsplit, heof, -⟩ := (Scanner.scans_of_tokens hscan).eof
  obtain ⟨rfl, rfl⟩ : front = front' ∧ eof = eof' := by simpa using List.append_inj' hsplit rfl
  rw [htokens, List.mem_toArray, List.mem_append, List.mem_singleton] at ht
  rcases ht with ht | rfl
  · exact (hlines.1.proper_of_mem (List.mem_map_of_mem ht)).2
  · rw [heof]
    decide

end Program

/-- The parser accepts tags exactly if those in front of the first end of the text spell a program whose
expressions and IF statements are nested at most `maxNesting` deep, and it yields the lines that they spell. No
token of a program is invalid. -/
theorem Grammar.parse_accepts_exactly :
    (∀ tags lines, Grammar.parse tags = .ok lines ↔
      ∃ front rest, tags = front ++ .eof :: rest ∧ .eof ∉ front ∧ Grammar.Derives front lines) ∧
    ∀ source p, Program.parse source = .ok p → ∀ t ∈ p.tokens, t.tag ≠ .invalid := by
  refine ⟨fun tags lines => parse_eq_ok_iff, fun source p h t ht => ?_⟩
  obtain ⟨-, lines, hlines⟩ := Program.parse_eq_ok_iff.1 h
  exact hlines.tag_ne_invalid ht

theorem Grammar.parse_accepts_sample :
    ∃ p, Program.parse Program.sample = .ok p ∧ ∀ t ∈ p.tokens, t.tag ≠ .invalid := by
  obtain ⟨p, hp⟩ := Program.exists_parse_sample
  exact ⟨p, hp, Grammar.parse_accepts_exactly.2 _ p hp⟩

end LineBasic

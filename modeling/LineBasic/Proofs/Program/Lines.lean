import LineBasic.Proofs.Program.Parsed

/-!
# Source lines

The tokens of a program fall into lines. A line without a statement leaves nothing in the tree, so the lines of the
tree are those source lines that hold a statement, in the order of the source.

## Main definitions

* `SourceLine`: the tokens of a line with their positions.
* `SourceLine.holdsStatement`: something stands in the line besides its number.
* `SourceLine.NumberedBy`: a line with a statement and a number of some value in front of it.
* `Program.sourceLines`: the lines of a program.
* `SourceLine.Spells`: a plain line is what the tokens of a source line mean.
* `SourceLine.Within`: the tokens of a line are those of a program.

## Main results

* `Grammar.LineSpelledBy.holdsStatement_eq`: the lines with a statement are those that are in the tree.
* `Program.Means.spells`: the plain lines of a program are what its lines with a statement mean.
* `SourceLine.Spells.numberedBy_iff`: a line has the number of its plain line.
-/

namespace LineBasic

/-- The tokens of a line, with their positions. -/
abbrev SourceLine := List (Token × TokenId)

/-- The lines of a program: its tokens in front of the end of the text, cut at the line ends. -/
def Program.sourceLines (p : Program) : List SourceLine :=
  p.tokens.toList.dropLast.zipIdx.splitOnP fun t => t.1.tag = .eol

namespace SourceLine

/-- The leaves of a line. -/
def leaves (line : SourceLine) : List Leaf := line.map fun t => (t.1.tag, t.2)

/-- The line is not empty, and it is more than a number. -/
def holdsStatement : SourceLine → Bool
  | [] => false
  | [(t, _)] => t.tag ≠ .number
  | _ :: _ :: _ => true

/-- The line starts with a number of a given value, however it is written, and holds a statement. -/
def NumberedBy (source : List Char) (n : Int) : SourceLine → Prop
  | (t, _) :: _ :: _ => t.tag = .number ∧ (Decimal.value (t.text source) : Int) = n
  | _ => False

instance (source : List Char) (n : Int) (line : SourceLine) : Decidable (line.NumberedBy source n) :=
  match line with
  | [] => inferInstanceAs (Decidable False)
  | [_] => inferInstanceAs (Decidable False)
  | (_, _) :: _ :: _ => inferInstanceAs (Decidable (_ ∧ _))

/-- The tokens of the line spell a line of the tree, which means a plain line. -/
def Spells (p : Program) (line : SourceLine) (c : Clause) : Prop :=
  ∃ parsed, Grammar.LineSpelledBy (some parsed) line.leaves ∧ c.MeantBy p.lexemes parsed

theorem NumberedBy.holdsStatement {source : List Char} {n : Int} {line : SourceLine} (h : line.NumberedBy source n) :
    line.holdsStatement :=
  match line, h with
  | (_, _) :: _ :: _, _ => rfl

end SourceLine

open SourceLine

namespace Grammar

variable {line? : Option ParsedLine} {lines : List ParsedLine} {line ts : SourceLine} {ls : List Leaf}

/-- A line is in the tree exactly if it holds a statement. -/
theorem LineSpelledBy.holdsStatement_eq (h : LineSpelledBy line? line.leaves) : line.holdsStatement = line?.isSome := by
  generalize hls : line.leaves = ls at h
  cases h with
  | empty =>
    obtain rfl := List.map_eq_nil_iff.1 hls
    rfl
  | number n =>
    obtain ⟨t, rfl, ht⟩ := List.map_eq_singleton_iff.1 hls
    simp [holdsStatement, (Prod.mk.inj ht).1]
  | naked hs =>
    obtain ⟨tag, i, ls', rfl, htag⟩ := hs.head_ne_number
    obtain ⟨t, rest, rfl, ht, -⟩ := List.map_eq_cons_iff.1 hls
    obtain ⟨rfl, -⟩ := Prod.mk.inj ht
    cases rest with
    | nil => simpa [holdsStatement] using htag
    | cons => rfl
  | marked n hs =>
    obtain ⟨tag, i, ls', rfl, -⟩ := hs.head_ne_number
    obtain ⟨t, rest, rfl, -, hrest⟩ := List.map_eq_cons_iff.1 hls
    obtain ⟨u, rest, rfl, -, -⟩ := List.map_eq_cons_iff.1 hrest
    rfl

/-- The lines of the tree are spelled by the lines that hold a statement, one by one. -/
theorem SpelledBy.forall₂_lines (h : SpelledBy lines ls) (hts : leaves ts = ls) :
    List.Forall₂ (fun parsed line => LineSpelledBy (some parsed) (leaves line) ∧ ∀ t ∈ line, t ∈ ts) lines
      ((ts.splitOnP fun t => t.1.tag = .eol).filter holdsStatement) := by
  induction h generalizing ts with
  | nil =>
    obtain rfl := List.map_eq_nil_iff.1 hts
    exact .nil
  | @last line ls hline =>
    subst hts
    have hinner : ∀ t ∈ ts, decide (t.1.tag = .eol) = false := fun t ht =>
      decide_eq_false (hline.inner _ (List.mem_map_of_mem ht)).2
    rw [List.splitOnP_eq_singleton hinner, List.filter_singleton, hline.holdsStatement_eq]
    exact .cons ⟨hline, fun t ht => ht⟩ .nil
  | @line line? lines ls ls' i hline _ ih =>
    -- No leaf of the line itself is a line end, so the first cut is behind it.
    obtain ⟨front, rest, rfl, rfl, hrest⟩ := List.map_eq_append_iff.1 hts
    obtain ⟨e, behind, rfl, he, rfl⟩ := List.map_eq_cons_iff.1 hrest
    have hinner : ∀ t ∈ front, decide (t.1.tag = .eol) = false := fun t ht =>
      decide_eq_false (hline.inner _ (List.mem_map_of_mem ht)).2
    rw [List.splitOnP_append_cons_of_forall_mem hinner _ (decide_eq_true (Prod.mk.inj he).1)]
    have hlater : List.Forall₂
        (fun parsed line => LineSpelledBy (some parsed) (leaves line) ∧ ∀ t ∈ line, t ∈ front ++ e :: behind) lines
        ((behind.splitOnP fun t => t.1.tag = .eol).filter holdsStatement) :=
      (ih rfl).imp fun _ _ ⟨hspelled, hmem⟩ =>
        ⟨hspelled, fun t ht => List.mem_append_right front (List.mem_cons_of_mem e (hmem t ht))⟩
    cases line? with
    | none =>
      rw [List.filter_cons_of_neg (by rw [hline.holdsStatement_eq]; exact Bool.false_ne_true)]
      exact hlater
    | some parsed =>
      rw [List.filter_cons_of_pos (by rw [hline.holdsStatement_eq]; rfl)]
      exact .cons ⟨hline, fun t ht => List.mem_append_left _ ht⟩ hlater

end Grammar

section Program

variable {p : Program} {clauses : List Clause} {line : SourceLine} {c : Clause}

/-- The tokens of the line are those of the program at their positions. -/
def SourceLine.Within (p : Program) (line : SourceLine) : Prop := ∀ t ∈ line, p.tokens[t.2]? = some t.1

/-- The plain lines of a program are what its lines with a statement mean, one by one. -/
theorem Program.Means.spells (h : p.Means clauses) :
    List.Forall₂ (fun c line => line.Spells p c ∧ line.Within p) clauses (p.sourceLines.filter holdsStatement) := by
  obtain ⟨lines, ⟨front, eof, -, htokens, hlines, -⟩, hclauses⟩ := h
  have hfront : p.tokens.toList.dropLast = front := by rw [htokens, List.dropLast_concat]
  have hleaves : leaves front.zipIdx = leavesOf (front.map Token.tag) := by
    rw [leaves, leavesOf, List.zipIdx_map]
    rfl
  rw [Program.sourceLines, hfront]
  refine (forall₂_common hclauses (hlines.1.forall₂_lines hleaves)).imp ?_
  rintro c line ⟨parsed, hmeant, hspelled, hmem⟩
  refine ⟨⟨parsed, hspelled, hmeant⟩, fun t ht => ?_⟩
  obtain ⟨hi, hget⟩ := List.mem_zipIdx' (hmem t ht)
  rw [htokens, List.getElem?_toArray, List.getElem?_append_left hi, List.getElem?_eq_getElem hi, hget]

/-- A line has the number of its plain line. -/
theorem SourceLine.Spells.numberedBy_iff (h : line.Spells p c) (hline : line.Within p) (n : Int) :
    line.NumberedBy p.source n ↔ ∃ m ∈ c.line.number, (m.val : Int) = n := by
  obtain ⟨parsed, hspelled, hmeans, -⟩ := h
  generalize hls : line.leaves = ls at hspelled
  cases hspelled with
  | naked hs =>
    -- A statement does not start with a number.
    obtain ⟨tag, i, ls', rfl, htag⟩ := hs.head_ne_number
    obtain ⟨⟨t, j⟩, rest, rfl, ht, -⟩ := List.map_eq_cons_iff.1 hls
    obtain ⟨rfl, -⟩ := Prod.mk.inj ht
    have hnumber : c.line.number = none := by
      generalize c.line = line' at hmeans
      cases hmeans
      rfl
    rw [hnumber]
    cases rest with
    | nil => exact ⟨nofun, nofun⟩
    | cons u rest => exact ⟨fun h => absurd h.1 htag, nofun⟩
  | marked i hs =>
    obtain ⟨tag, k, ls', rfl, -⟩ := hs.head_ne_number
    obtain ⟨⟨t, j⟩, rest, rfl, ht, hrest⟩ := List.map_eq_cons_iff.1 hls
    obtain ⟨u, rest, rfl, -, -⟩ := List.map_eq_cons_iff.1 hrest
    obtain ⟨htag, rfl⟩ := Prod.mk.inj ht
    replace htag : t.tag = .number := htag
    generalize c.line = line' at hmeans ⊢
    cases hmeans with
    | @marked i m s s' hm hs' =>
      obtain ⟨w, hw, -, hvalue⟩ := hm
      have hget := hline _ List.mem_cons_self
      rw [Program.lexemes, lexemesOf, List.getElem?_map, Array.getElem?_toList, hget] at hw
      cases hw
      simp only [Decimal.unsigned?, Option.ite_none_right_eq_some, Option.some.injEq] at hvalue
      simp [NumberedBy, htag, hvalue.2]

end Program

end LineBasic

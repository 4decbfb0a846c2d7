import LineBasic.Proofs.Text.Decimal
import LineBasic.Text.Csv

/-!
# Reading tables of comma-separated values

A table can be spelled in several ways: an integer by any of its numerals, a row with a line feed at its end or with
a carriage return and a line feed, and the last row without either. But a text spells one table at most, and a reader
that looks at one character after another finds it. What is written is one of the spellings, so it is read back as
it was.

Line ends, commas and quotes may stand inside quotes, so whether a character ends a field depends on all that was read
before. A reader therefore keeps how far it has got in its field.

## Main definitions

* `Csv.SpelledBy`: the texts that spell a table.
* `Csv.Reader`, `Csv.read`: the reader, and the table that it finds in a text.
* `Csv.Reader.Behind`: where a reader stands behind a text.

## Main results

* `Csv.SpelledBy.run_eq`: the reader finds the table that a text spells.
* `Csv.Reader.HasRead.spelledBy_of_run`: the text spells the table that the reader finds.
* `Csv.read_eq_some_iff`: a text is read as a table exactly if it spells the table.
* `Csv.spelledBy_write`: what is written spells the table.
-/

namespace LineBasic.Csv

/-! ### Spellings -/

/-- A field is spelled by a text between quotes, by a numeral, or by nothing. -/
inductive Field.SpelledBy : Field → List Char → Prop
  | text (cs : List Char) : SpelledBy (.text cs) ('"' :: escape cs ++ ['"'])
  | integer {n : Int} {cs : List Char} (h : Decimal.Denotes cs n) : SpelledBy (.integer n) cs
  | missing : SpelledBy .missing []

/-- The fields of a row have commas between them. -/
inductive RowSpelledBy : List Field → List Char → Prop
  | last {f : Field} {cs : List Char} (h : f.SpelledBy cs) : RowSpelledBy [f] cs
  | comma {f : Field} {fs : List Field} {cs rest : List Char} (h : f.SpelledBy cs) (hfs : RowSpelledBy fs rest) :
      RowSpelledBy (f :: fs) (cs ++ ',' :: rest)

/-- What may end a row. -/
def lineEnds : List (List Char) := [['\n'], ['\r', '\n']]

/-- Each row of a table has a line end. The last one may lack it if there is something else of it. -/
inductive SpelledBy : List (List Field) → List Char → Prop
  | nil : SpelledBy [] []
  | last {row : List Field} {cs : List Char} (h : RowSpelledBy row cs) (hne : cs ≠ []) : SpelledBy [row] cs
  | row {row : List Field} {rows : List (List Field)} {cs ending rest : List Char} (h : RowSpelledBy row cs)
      (hending : ending ∈ lineEnds) (hrows : SpelledBy rows rest) : SpelledBy (row :: rows) (cs ++ (ending ++ rest))

/-! ### The reader -/

/-- The characters of a field outside quotes. -/
def isBare (c : Char) : Bool := c ≠ '"' && c ≠ ',' && c ≠ '\n' && c ≠ '\r'

/-- The field that stands without quotes. -/
def bareField? : List Char → Option Field
  | [] => some .missing
  | cs => (Decimal.signed? cs).map .integer

/-- How far a reader has got in a field. -/
inductive Stage where
  /-- It has read some characters outside quotes. -/
  | bare (cs : List Char)
  /-- It has read some text inside quotes. -/
  | quoted (cs : List Char)
  /-- It stands behind a quote, which ends the text or is the first half of a quote in the text. -/
  | closed (cs : List Char)
  /-- It stands behind the carriage return of a line end. -/
  | returned (f : Field)
  deriving DecidableEq

/-- The field that a reader has read if it ends here. -/
def Stage.field? : Stage → Option Field
  | .bare cs => bareField? cs
  | .closed cs => some (.text cs)
  | .quoted _ | .returned _ => none

/-- A reader has read some rows, some fields of the next row, and a part of the next field. -/
structure Reader where
  rows : List (List Field)
  fields : List Field
  stage : Stage

namespace Reader

/-- The reader at the beginning of a text. -/
def start : Reader := ⟨[], [], .bare []⟩

/-- The reader behind a character that ends a field. -/
def separate (r : Reader) (f : Field) (c : Char) : Option Reader :=
  if c = ',' then some ⟨r.rows, r.fields ++ [f], .bare []⟩
  else if c = '\n' then some ⟨r.rows ++ [r.fields ++ [f]], [], .bare []⟩
  else if c = '\r' then some { r with stage := .returned f }
  else none

/-- The reader behind one more character. -/
def step (r : Reader) (c : Char) : Option Reader :=
  match r.stage with
  | .bare cs =>
    if isBare c then some { r with stage := .bare (cs ++ [c]) }
    else if c = '"' then if cs = [] then some { r with stage := .quoted [] } else none
    else (bareField? cs).bind (r.separate · c)
  | .quoted cs => some { r with stage := if c = '"' then .closed cs else .quoted (cs ++ [c]) }
  | .closed cs => if c = '"' then some { r with stage := .quoted (cs ++ ['"']) } else r.separate (.text cs) c
  | .returned f => if c = '\n' then r.separate f c else none

/-- The table that has been read when the text ends. -/
def finish (r : Reader) : Option (List (List Field)) :=
  if r.fields = [] ∧ r.stage = .bare [] then some r.rows
  else r.stage.field?.map fun f => r.rows ++ [r.fields ++ [f]]

/-- Reads the rest of a text. -/
def run : Reader → List Char → Option (List (List Field))
  | r, [] => r.finish
  | r, c :: cs => (r.step c).bind fun r' => r'.run cs

end Reader

/-- The table that a text spells, if it spells one. -/
def read (cs : List Char) : Option (List (List Field)) := Reader.start.run cs

/-- The row with the names of the columns. -/
def header (names : List String) : List Field := names.map fun name => .text name.toList

/-- The rows below the names of the columns. -/
def rowsUnder? (names : List String) (cs : List Char) : Option (List (List Field)) :=
  match read cs with
  | some (first :: rows) => if first = header names then some rows else none
  | _ => none

/-! ### Texts and numerals -/

variable {f : Field} {fs fields : List Field} {rows table : List (List Field)} {c : Char}
  {cs rest ending text : List Char} {stage : Stage} {r r' : Reader} {names : List String}

theorem escape_append (cs cs' : List Char) : escape (cs ++ cs') = escape cs ++ escape cs' := by
  induction cs with
  | nil => rfl
  | cons c cs ih =>
    rw [List.cons_append, escape, escape, ih]
    split
    · rfl
    · rfl

/-- No character of a numeral has a meaning between fields. -/
theorem isBare_of_denotes {n : Int} (h : Decimal.Denotes cs n) (hc : c ∈ cs) : isBare c := by
  have hdigit : c.isDigit → isBare c := by
    intro hdigit
    simp only [isBare, Bool.and_eq_true, decide_eq_true_iff]
    refine ⟨⟨⟨?_, ?_⟩, ?_⟩, ?_⟩ <;> (rintro rfl; cases hdigit)
  rcases h.mem hc with h | rfl | rfl
  · exact hdigit h
  · decide
  · decide

theorem bareField?_of_denotes {n : Int} (h : Decimal.Denotes cs n) : bareField? cs = some (.integer n) := by
  rw [bareField?.eq_def]
  split
  · exact absurd rfl h.ne_nil
  · rw [Decimal.signed?_eq_some_iff.2 h]
    rfl

theorem spelledBy_of_bareField? (h : bareField? cs = some f) : f.SpelledBy cs := by
  rw [bareField?.eq_def] at h
  split at h
  · obtain rfl := Option.some.inj h
    exact .missing
  · obtain ⟨n, hn, rfl⟩ := Option.map_eq_some_iff.1 h
    exact .integer (Decimal.signed?_eq_some_iff.1 hn)

/-! ### From spellings to tables -/

namespace Reader

/-- Inside quotes a reader goes on until the text ends. -/
theorem run_escape (cs acc rest : List Char) :
    run ⟨rows, fields, .quoted acc⟩ (escape cs ++ rest) = run ⟨rows, fields, .quoted (acc ++ cs)⟩ rest := by
  induction cs generalizing acc with
  | nil => rw [escape, List.nil_append, List.append_nil]
  | cons c cs ih =>
    have hgoes : run ⟨rows, fields, .quoted (acc ++ [c])⟩ (escape cs ++ rest) =
        run ⟨rows, fields, .quoted (acc ++ c :: cs)⟩ rest := by
      rw [ih, List.append_assoc, List.singleton_append]
    rw [escape]
    split
    · rename_i hquote
      rw [← hgoes, hquote]
      rfl
    · rename_i hquote
      rw [← hgoes, List.cons_append, run, step]
      dsimp only
      rw [if_neg hquote, Option.bind_some]

theorem run_bare (h : ∀ c ∈ cs, isBare c) (acc rest : List Char) :
    run ⟨rows, fields, .bare acc⟩ (cs ++ rest) = run ⟨rows, fields, .bare (acc ++ cs)⟩ rest := by
  induction cs generalizing acc with
  | nil => rw [List.nil_append, List.append_nil]
  | cons c cs ih =>
    obtain ⟨hc, hcs⟩ := List.forall_mem_cons.1 h
    rw [List.cons_append, run, step]
    dsimp only
    rw [if_pos hc, Option.bind_some, ih hcs, List.append_assoc, List.singleton_append]

/-- A character outside a field ends it. -/
theorem step_of_field? (h : stage.field? = some f) (hc : isBare c = false) (hquote : c ≠ '"') :
    step ⟨rows, fields, stage⟩ c = separate ⟨rows, fields, stage⟩ f c := by
  rw [step]
  cases stage with
  | bare cs =>
    dsimp only
    rw [hc, if_neg Bool.false_ne_true, if_neg hquote, show bareField? cs = some f from h, Option.bind_some]
  | closed cs =>
    obtain rfl := Option.some.inj h
    dsimp only
    rw [if_neg hquote]
  | quoted cs => cases h
  | returned f => cases h

theorem run_comma (h : stage.field? = some f) (rest : List Char) :
    run ⟨rows, fields, stage⟩ (',' :: rest) = run ⟨rows, fields ++ [f], .bare []⟩ rest := by
  rw [run, step_of_field? h (by decide) (by decide)]
  rfl

theorem run_lineEnd (h : stage.field? = some f) (hending : ending ∈ lineEnds) (rest : List Char) :
    run ⟨rows, fields, stage⟩ (ending ++ rest) = run ⟨rows ++ [fields ++ [f]], [], .bare []⟩ rest := by
  simp only [lineEnds, List.mem_cons, List.not_mem_nil, or_false] at hending
  rcases hending with rfl | rfl
  · rw [List.singleton_append, run, step_of_field? h (by decide) (by decide)]
    rfl
  · rw [List.cons_append, run, step_of_field? h (by decide) (by decide)]
    rfl

end Reader

open Reader

/-- Behind a spelling of a field the reader has the field. -/
theorem Field.SpelledBy.exists_stage (h : f.SpelledBy cs) : ∃ stage : Stage, stage.field? = some f ∧
    (stage = .bare [] → cs = []) ∧ ∀ rows fields rest,
      run ⟨rows, fields, .bare []⟩ (cs ++ rest) = run ⟨rows, fields, stage⟩ rest := by
  cases h with
  | text cs =>
    refine ⟨.closed cs, rfl, nofun, fun rows fields rest => ?_⟩
    have hquoted : run ⟨rows, fields, .quoted []⟩ (escape cs ++ '"' :: rest) =
        run ⟨rows, fields, .quoted cs⟩ ('"' :: rest) := run_escape cs [] _
    rw [List.cons_append, List.cons_append, List.append_assoc, List.singleton_append]
    exact hquoted
  | integer h =>
    refine ⟨.bare cs, bareField?_of_denotes h, fun hcs => Stage.bare.inj hcs, fun rows fields rest => ?_⟩
    exact run_bare (fun c hc => isBare_of_denotes h hc) [] rest
  | missing => exact ⟨.bare [], rfl, fun _ => rfl, fun rows fields rest => rfl⟩

/-- Behind a row and a line end the reader has one more row. -/
theorem RowSpelledBy.run_lineEnd (h : RowSpelledBy fs cs) (hending : ending ∈ lineEnds) (rest : List Char) :
    run ⟨rows, fields, .bare []⟩ (cs ++ (ending ++ rest)) = run ⟨rows ++ [fields ++ fs], [], .bare []⟩ rest := by
  induction h generalizing fields with
  | last h =>
    obtain ⟨stage, hstage, -, hrun⟩ := h.exists_stage
    rw [hrun, Reader.run_lineEnd hstage hending]
  | comma h _ ih =>
    obtain ⟨stage, hstage, -, hrun⟩ := h.exists_stage
    rw [List.append_assoc, List.cons_append, hrun, run_comma hstage, ih, List.append_assoc, List.singleton_append]

/-- A row at the end of the text needs no line end, except if nothing is left of it without one. -/
theorem RowSpelledBy.run_end (h : RowSpelledBy fs cs) (hne : cs ≠ [] ∨ fields ≠ []) :
    run ⟨rows, fields, .bare []⟩ cs = some (rows ++ [fields ++ fs]) := by
  induction h generalizing fields with
  | last h =>
    obtain ⟨stage, hstage, hbare, hrun⟩ := h.exists_stage
    have hbegun : ¬(fields = [] ∧ stage = .bare []) := fun ⟨hfields, hstart⟩ =>
      hne.elim (fun hcs => hcs (hbare hstart)) fun hnil => hnil hfields
    have hend := hrun rows fields []
    rw [List.append_nil] at hend
    rw [hend, run, finish]
    dsimp only
    rw [if_neg hbegun, hstage]
    rfl
  | comma h _ ih =>
    obtain ⟨stage, hstage, -, hrun⟩ := h.exists_stage
    rw [hrun, run_comma hstage, ih (.inr (by simp)), List.append_assoc, List.singleton_append]

/-- The reader finds the table that a text spells. -/
theorem SpelledBy.run_eq (h : SpelledBy table cs) (rows : List (List Field)) :
    run ⟨rows, [], .bare []⟩ cs = some (rows ++ table) := by
  induction h generalizing rows with
  | nil => rw [run, finish, if_pos ⟨rfl, rfl⟩, List.append_nil]
  | last h hne => exact h.run_end (.inl hne)
  | row h hending _ ih => rw [h.run_lineEnd hending, ih, List.append_assoc, List.nil_append, List.singleton_append]

/-! ### From tables to spellings -/

/-- What a reader has read of its field. -/
inductive Stage.Behind : Stage → List Char → Prop
  | bare (cs : List Char) : Behind (.bare cs) cs
  | quoted (cs : List Char) : Behind (.quoted cs) ('"' :: escape cs)
  | closed (cs : List Char) : Behind (.closed cs) ('"' :: escape cs ++ ['"'])
  | returned {f : Field} {cs : List Char} (h : f.SpelledBy cs) : Behind (.returned f) (cs ++ ['\r'])

/-- A reader stands behind its rows, the fields of its row and a part of a field: what spells rows behind it spells
all rows together with what it has read, and so do fields. -/
structure Reader.Behind (r : Reader) (before row field : List Char) : Prop where
  rows : ∀ {table : List (List Field)} {cs : List Char}, SpelledBy table cs →
    SpelledBy (r.rows ++ table) (before ++ cs)
  fields : ∀ {fs : List Field} {cs : List Char}, RowSpelledBy fs cs → RowSpelledBy (r.fields ++ fs) (row ++ cs)
  begun : r.fields = [] ↔ row = []
  stage : r.stage.Behind field

/-- A reader has read a text. -/
def Reader.HasRead (r : Reader) (text : List Char) : Prop :=
  ∃ before row field, text = before ++ (row ++ field) ∧ r.Behind before row field

theorem Stage.Behind.spelledBy (h : stage.Behind cs) (hf : stage.field? = some f) : f.SpelledBy cs := by
  cases h with
  | bare => exact spelledBy_of_bareField? hf
  | closed cs =>
    obtain rfl := Option.some.inj hf
    exact .text cs
  | quoted => cases hf
  | returned => cases hf

namespace Reader

theorem hasRead_start : start.HasRead [] :=
  ⟨[], [], [], rfl, id, id, iff_of_true rfl rfl, .bare []⟩

/-- Behind a character that changes nothing but the stage. -/
theorem Behind.hasRead_stage {before row field field' : List Char} (h : r.Behind before row field)
    (hstage : stage.Behind field') (hfield : field' = field ++ [c]) :
    HasRead { r with stage := stage } (before ++ (row ++ field) ++ [c]) := by
  refine ⟨before, row, field', ?_, h.rows, h.fields, h.begun, hstage⟩
  rw [hfield, List.append_assoc, List.append_assoc]

/-- Behind a line end the row of a reader has ended. -/
theorem Behind.hasRead_row {before row field : List Char} (h : r.Behind before row field) (hf : f.SpelledBy field)
    (hending : ending ∈ lineEnds) :
    HasRead ⟨r.rows ++ [r.fields ++ [f]], [], .bare []⟩ (before ++ (row ++ field) ++ ending) := by
  refine ⟨before ++ (row ++ field) ++ ending, [], [], by simp, fun {table cs} htable => ?_, id,
    iff_of_true rfl rfl, .bare []⟩
  have hrow : SpelledBy ((r.fields ++ [f]) :: table) (row ++ field ++ (ending ++ cs)) :=
    .row (h.fields (.last hf)) hending htable
  simpa only [List.append_assoc, List.singleton_append] using h.rows hrow

/-- Behind a character that ends a field. -/
theorem Behind.hasRead_separate {before row field : List Char} (h : r.Behind before row field)
    (hf : f.SpelledBy field) (hstep : r.separate f c = some r') : r'.HasRead (before ++ (row ++ field) ++ [c]) := by
  rw [separate] at hstep
  split at hstep
  · obtain rfl := Option.some.inj hstep
    rename_i hcomma
    subst hcomma
    refine ⟨before, row ++ field ++ [','], [], by simp, h.rows, fun {fs cs} hfs => ?_, by simp, .bare []⟩
    simpa only [List.append_assoc, List.singleton_append] using h.fields (.comma hf hfs)
  split at hstep
  · obtain rfl := Option.some.inj hstep
    rename_i hline
    subst hline
    exact h.hasRead_row hf (by decide)
  split at hstep
  · obtain rfl := Option.some.inj hstep
    rename_i hreturn
    subst hreturn
    exact h.hasRead_stage (.returned hf) rfl
  · cases hstep

/-- One more character. -/
theorem HasRead.step (h : r.HasRead text) (hstep : r.step c = some r') : r'.HasRead (text ++ [c]) := by
  obtain ⟨before, row, field, rfl, h⟩ := h
  obtain ⟨rows, fields, stage⟩ := r
  have hbehind := h.stage
  rw [Reader.step] at hstep
  dsimp only at hstep hbehind
  cases hbehind with
  | bare =>
    dsimp only at hstep
    split at hstep
    · obtain rfl := Option.some.inj hstep
      exact h.hasRead_stage (.bare _) rfl
    split at hstep
    · rename_i hquote
      split at hstep
      · rename_i hempty
        obtain rfl := Option.some.inj hstep
        exact h.hasRead_stage (.quoted []) (by rw [hquote, hempty]; rfl)
      · cases hstep
    · obtain ⟨f, hf, hstep⟩ := Option.bind_eq_some_iff.1 hstep
      exact h.hasRead_separate (spelledBy_of_bareField? hf) hstep
  | quoted cs =>
    obtain rfl := Option.some.inj hstep
    split
    · rename_i hquote
      exact h.hasRead_stage (.closed cs) (by rw [hquote])
    · rename_i hquote
      refine h.hasRead_stage (.quoted _) ?_
      rw [escape_append, escape, if_neg hquote]
      rfl
  | closed cs =>
    dsimp only at hstep
    split at hstep
    · rename_i hquote
      obtain rfl := Option.some.inj hstep
      refine h.hasRead_stage (.quoted _) ?_
      rw [escape_append, hquote, List.append_assoc]
      rfl
    · exact h.hasRead_separate (.text cs) hstep
  | @returned f cs hf =>
    dsimp only at hstep
    split at hstep
    · rename_i hline
      subst hline
      obtain rfl := Option.some.inj hstep
      -- The carriage return belongs to the line end, not to the field.
      have hback : Behind ⟨rows, fields, .bare cs⟩ before row cs := ⟨h.rows, h.fields, h.begun, .bare cs⟩
      have hread : HasRead _ (before ++ (row ++ cs) ++ ['\r', '\n']) := hback.hasRead_row hf (by decide)
      simpa only [List.append_assoc, List.cons_append, List.nil_append] using hread
    · cases hstep

/-- At the end of the text. -/
theorem HasRead.spelledBy_of_finish (h : r.HasRead text) (hfinish : r.finish = some table) :
    SpelledBy table text := by
  obtain ⟨before, row, field, rfl, h⟩ := h
  rw [finish] at hfinish
  split at hfinish
  · rename_i hend
    obtain ⟨hfields, hstage⟩ := hend
    obtain rfl := Option.some.inj hfinish
    have hbehind := h.stage
    rw [hstage] at hbehind
    cases hbehind
    rw [h.begun.1 hfields]
    simpa only [List.append_nil] using h.rows .nil
  · rename_i hbegun
    obtain ⟨f, hf, rfl⟩ := Option.map_eq_some_iff.1 hfinish
    -- The last row has no line end, so it must not be empty.
    refine h.rows (.last (h.fields (.last (h.stage.spelledBy hf))) fun hempty => hbegun ?_)
    obtain ⟨hrow, hfield⟩ := List.append_eq_nil_iff.1 hempty
    refine ⟨h.begun.2 hrow, ?_⟩
    have hbehind := h.stage
    rw [hfield] at hbehind
    generalize r.stage = stage at hbehind hf
    cases stage with
    | bare => cases hbehind; rfl
    | closed | quoted | returned => cases hf <;> cases hbehind

/-- The text spells the table that the reader finds. -/
theorem HasRead.spelledBy_of_run (h : r.HasRead text) (hrun : r.run cs = some table) :
    SpelledBy table (text ++ cs) := by
  induction cs generalizing r text with
  | nil =>
    rw [List.append_nil]
    exact h.spelledBy_of_finish hrun
  | cons c cs ih =>
    obtain ⟨r', hstep, hrun⟩ := Option.bind_eq_some_iff.1 hrun
    have hread := ih (h.step hstep) hrun
    rwa [List.append_assoc, List.singleton_append] at hread

end Reader

/-- A text is read as a table exactly if it spells the table. -/
theorem read_eq_some_iff : read cs = some table ↔ SpelledBy table cs :=
  ⟨fun h => hasRead_start.spelledBy_of_run h, fun h => h.run_eq []⟩

/-! ### What is written -/

theorem Field.spelledBy_write (f : Field) : f.SpelledBy f.write := by
  cases f with
  | text cs => exact .text cs
  | integer n => exact .integer (Decimal.denotes_toString n)
  | missing => exact .missing

theorem rowSpelledBy_intercalate (hne : fs ≠ []) : RowSpelledBy fs ([','].intercalate (fs.map Field.write)) := by
  induction fs with
  | nil => exact absurd rfl hne
  | cons f fs ih =>
    cases fs with
    | nil => exact .last (by simpa using f.spelledBy_write)
    | cons f' fs => exact .comma f.spelledBy_write (ih (List.cons_ne_nil _ _))

theorem spelledBy_flatMap_writeRow (h : ∀ row ∈ rows, row ≠ []) : SpelledBy rows (rows.flatMap writeRow) := by
  induction rows with
  | nil => exact .nil
  | cons row rows ih =>
    obtain ⟨hrow, hrows⟩ := List.forall_mem_cons.1 h
    rw [List.flatMap_cons, writeRow, List.append_assoc]
    exact .row (rowSpelledBy_intercalate hrow) (by decide) (ih hrows)

/-- What is written spells the rows below the names of the columns. -/
theorem spelledBy_write (hnames : names ≠ []) (h : ∀ row ∈ rows, row ≠ []) :
    SpelledBy (header names :: rows) (write names rows) :=
  spelledBy_flatMap_writeRow
    (List.forall_mem_cons.2 ⟨fun hnil => hnames (List.map_eq_nil_iff.1 hnil), h⟩)

/-- Below the names of its columns, the rows of a table are those that its text spells. -/
theorem rowsUnder?_eq_some_iff : rowsUnder? names cs = some rows ↔ SpelledBy (header names :: rows) cs := by
  rw [← read_eq_some_iff, rowsUnder?]
  split
  · rename_i first rest hread
    rw [hread]
    split
    · rename_i hfirst
      rw [hfirst, Option.some.injEq, Option.some.injEq, List.cons.injEq, and_iff_right rfl]
    · rename_i hfirst
      refine iff_of_false (Option.some_ne_none rows).symm fun h => hfirst ?_
      exact (List.cons.inj (Option.some.inj h)).1
  · rename_i hread
    exact iff_of_false (Option.some_ne_none rows).symm (hread _ _)

/-- Quotes, commas and line ends inside quotes belong to the text. -/
example : read "\"a\"\"b\",-3,\r\n\",\n\",,07".toList =
    some [[.text "a\"b".toList, .integer (-3), .missing], [.text ",\n".toList, .missing, .integer 7]] := by decide

end LineBasic.Csv

import LineBasic.Proofs.Grammar.Statement

/-!
# What the parser accepts

The parser accepts a list of tags exactly if the tags in front of the first end of the text spell a program
within the limit on nesting, and then it finds the lines that they spell. With another limit, the same parser
accepts the programs within that one.

## Main definitions

* `Grammar.lineWithin`, `Grammar.nextLineWithin`, `Grammar.programWithin`: the parsers of lines and programs, with
  any number of levels of nesting.

## Main results

* `Grammar.lineWithin_sound`, `Grammar.lineWithin_complete`: lines.
* `Grammar.programWithin_eq_ok_iff`, `Grammar.parse_eq_ok_iff`: programs.
* `Grammar.Derives.unique`: tags spell at most one program.
-/

namespace LineBasic

/-- A tag that a rule of the grammar can use. -/
def Tag.Proper (t : Tag) : Prop := t ≠ .eof ∧ t ≠ .invalid

/-- Leaves whose tags the grammar can use. -/
def ProperLeaves (ls : List Leaf) : Prop := ∀ l ∈ ls, l.1.Proper

@[simp] theorem properLeaves_nil : ProperLeaves [] := by simp [ProperLeaves]

@[simp] theorem properLeaves_cons {l : Leaf} {ls : List Leaf} :
    ProperLeaves (l :: ls) ↔ l.1.Proper ∧ ProperLeaves ls := by
  simp [ProperLeaves]

@[simp] theorem properLeaves_append {ls ls' : List Leaf} :
    ProperLeaves (ls ++ ls') ↔ ProperLeaves ls ∧ ProperLeaves ls' := by
  simp [ProperLeaves, or_imp, forall_and]

/-- A tag that a line can hold in front of its end. -/
def Tag.Inner (t : Tag) : Prop := t.Proper ∧ t ≠ .eol

/-- Leaves that a line can hold in front of its end. -/
def InnerLeaves (ls : List Leaf) : Prop := ∀ l ∈ ls, l.1.Inner

@[simp] theorem innerLeaves_nil : InnerLeaves [] := by simp [InnerLeaves]

@[simp] theorem innerLeaves_cons {l : Leaf} {ls : List Leaf} :
    InnerLeaves (l :: ls) ↔ l.1.Inner ∧ InnerLeaves ls := by
  simp [InnerLeaves]

@[simp] theorem innerLeaves_append {ls ls' : List Leaf} :
    InnerLeaves (ls ++ ls') ↔ InnerLeaves ls ∧ InnerLeaves ls' := by
  simp [InnerLeaves, or_imp, forall_and]

theorem InnerLeaves.proper {ls : List Leaf} (h : InnerLeaves ls) : ProperLeaves ls := fun l hl => (h l hl).1

theorem Expr.SpelledBy.inner {l : Level} {e : ParsedExpr l} {ls : List Leaf} (h : e.SpelledBy ls) :
    InnerLeaves ls := by
  induction h <;> simp_all [Tag.Inner, Tag.Proper]

theorem Item.SpelledBy.inner {item : ParsedItem} {ls : List Leaf} (h : item.SpelledBy ls) : InnerLeaves ls := by
  cases h with
  | text s => simp [Tag.Inner, Tag.Proper]
  | value he => exact he.inner

/-- What holds of the tags of the members holds of the tags of a list with commas. -/
theorem ListSpelledBy.forall_tag (p : Tag → Prop) {α : Type} {spelled : α → List Leaf → Prop} (hcomma : p .comma)
    (hspelled : ∀ {a ls}, spelled a ls → ∀ l ∈ ls, p l.1) {as : List α} {ls : List Leaf}
    (h : ListSpelledBy (Behind .comma spelled) as ls) : ∀ l ∈ ls, p l.1 := by
  induction h with
  | nil => simp
  | cons ha _ ih =>
    obtain ⟨i, ls, rfl, ha⟩ := ha
    exact List.forall_mem_append.2 ⟨List.forall_mem_cons.2 ⟨hcomma, hspelled ha⟩, ih⟩

theorem VariableSpelledBy.inner {v : TokenId} {ls : List Leaf} (h : VariableSpelledBy v ls) : InnerLeaves ls := by
  subst h
  simp [Tag.Inner, Tag.Proper]

theorem Stmt.SpelledBy.inner {s : ParsedStmt} {ls : List Leaf} (h : s.SpelledBy ls) : InnerLeaves ls := by
  have hkeyword (k : Keyword) : (Tag.keyword k).Inner := by simp [Tag.Inner, Tag.Proper]
  have hcomma : Tag.comma.Inner := by simp [Tag.Inner, Tag.Proper]
  induction h with
  | print mark hitem hmore =>
    have hmore : InnerLeaves _ := hmore.forall_tag Tag.Inner hcomma Item.SpelledBy.inner
    simp [hkeyword, hitem.inner, hmore]
  | input mark hv hmore =>
    have hmore : InnerLeaves _ := hmore.forall_tag Tag.Inner hcomma VariableSpelledBy.inner
    simp [hkeyword, hv.inner, hmore]
  | assign i j he => simp [Tag.Inner, Tag.Proper, he.inner]
  | branch mark r rmark i he₁ he₂ _ ih => simp [Tag.Inner, Tag.Proper, he₁.inner, he₂.inner, ih]
  | goto mark he | gosub mark he => simp [hkeyword, he.inner]
  | action mark a => simp [hkeyword]

theorem Stmt.SpelledBy.head_ne_number {s : ParsedStmt} {ls : List Leaf} (h : s.SpelledBy ls) :
    ∃ t i ls', ls = (t, i) :: ls' ∧ t ≠ .number := by
  cases h <;> exact ⟨_, _, _, rfl, by simp⟩

namespace Grammar

open LineBasic.Parser

/-- A line, inside which so many levels can be nested. -/
def lineWithin (levels : Nat) : Parser (Option ParsedLine) := do
  let number ← eat .number
  let body ← statement levels
  lineEnd
  return body.map fun s => ⟨number, s⟩

/-- A line within a limit on nesting, unless the text has ended. -/
def nextLineWithin (levels : Nat) : Parser (Option (Option ParsedLine)) := do
  if (← peek) = .eof then
    return none
  else
    return some (← lineWithin levels)

/-- The lines of a program within a limit on nesting. -/
def programWithin (levels : Nat) : Parser (List ParsedLine) := do
  return (← many (nextLineWithin levels)).filterMap id

theorem program_eq : program = programWithin maxNesting := rfl

variable {levels : Nat} {c c₁ c' : Cursor} {line? : Option ParsedLine} {lines : List ParsedLine} {ls : List Leaf}

theorem LineSpelledBy.inner (h : LineSpelledBy line? ls) : InnerLeaves ls := by
  cases h with
  | empty => simp
  | number n => simp [Tag.Inner, Tag.Proper]
  | naked hs => exact hs.inner
  | marked n hs => simp [Tag.Inner, Tag.Proper, hs.inner]

theorem SpelledBy.proper (h : SpelledBy lines ls) : ProperLeaves ls := by
  induction h with
  | nil => simp
  | last hline => exact hline.inner.proper
  | line i hline _ ih => simp [Tag.Proper, hline.inner.proper, ih]

/-- The nesting of a line, which may be empty, keeps to a limit. -/
def Shallow (levels : Nat) (line? : Option ParsedLine) : Prop := ∀ line ∈ line?, line.body.nesting ≤ levels

theorem lineEnd_eq_ok_iff {u : Unit} : lineEnd c = .ok (u, c') ↔
    (∃ i, c.Reads [(.eol, i)] c') ∨ c = c' ∧ c.Sees (· = .eof) := by
  constructor
  · intro h
    obtain ⟨r, c₁, hr, h⟩ := bind_eq_ok_iff.1 h
    cases r with
    | some i =>
      obtain ⟨-, rfl⟩ := pure_eq_ok_iff.1 h
      exact .inl ⟨i, eat_eq_some_iff.1 hr⟩
    | none =>
      obtain ⟨rfl, -⟩ := eat_eq_none_iff.1 hr
      obtain ⟨t, ts, hts, h⟩ := peek_bind_eq_ok_iff.1 h
      split at h
      · exact .inr ⟨(pure_eq_ok_iff.1 h).2, t, ts, hts, ‹_›⟩
      · exact absurd h complain_ne_ok
  · rintro (⟨i, h⟩ | ⟨rfl, t, ts, hts, rfl⟩)
    · rw [lineEnd, bind_eq_of_eq_ok (eat_eq_some_iff.2 h)]
      rfl
    · have hnone : eat .eol c = .ok (none, c) := eat_eq_none_iff.2 ⟨rfl, _, ts, hts, by simp⟩
      rw [lineEnd, bind_eq_of_eq_ok hnone]
      exact peek_bind_eq_ok_iff.2 ⟨_, ts, hts, by rw [if_pos rfl, pure_eq_ok_iff]; simp⟩

/-- What is read for the number of a line, which may be nothing. -/
theorem number_sound {number : Option TokenId} (h : eat .number c = .ok (number, c')) :
    ∃ front, c.Reads front c' ∧ LineSpelledBy none front ∧
      ∀ {s : ParsedStmt} {ls : List Leaf}, s.SpelledBy ls → LineSpelledBy (some ⟨number, s⟩) (front ++ ls) := by
  cases number with
  | none =>
    obtain ⟨rfl, -⟩ := eat_eq_none_iff.1 h
    exact ⟨[], .done c, .empty, .naked⟩
  | some n => exact ⟨_, eat_eq_some_iff.1 h, .number n, .marked n⟩

/-- A line has an end, or it holds a statement and the text ends behind it. -/
theorem lineWithin_sound (h : lineWithin levels c = .ok (line?, c')) : Shallow levels line? ∧
    ((∃ ls i, c.Reads (ls ++ [(.eol, i)]) c' ∧ LineSpelledBy line? ls) ∨
      ∃ ls line, c.Reads ls c' ∧ line? = some line ∧ LineSpelledBy line? ls ∧ c'.Sees (· = .eof)) := by
  obtain ⟨number, c₁, hnumber, h⟩ := bind_eq_ok_iff.1 h
  obtain ⟨body, c₂, hbody, h⟩ := bind_eq_ok_iff.1 h
  obtain ⟨u, c₃, hend, h⟩ := bind_eq_ok_iff.1 h
  obtain ⟨rfl, rfl⟩ := pure_eq_ok_iff.1 h
  have hend := lineEnd_eq_ok_iff.1 hend
  obtain ⟨ls₁, hreads₁, hnone, hsome⟩ := number_sound hnumber
  cases body with
  | none =>
    obtain ⟨rfl, heol⟩ := statement_eq_none_iff.1 hbody
    refine ⟨by simp [Shallow], .inl ?_⟩
    -- Without a statement, the next tag is the line end and not the end of the text.
    rcases hend with ⟨i, hi⟩ | ⟨rfl, heof⟩
    · exact ⟨ls₁, i, hreads₁.append hi, hnone⟩
    · obtain ⟨t, rfl, ht⟩ := heol.exists_both heof
      cases ht
  | some s =>
    obtain ⟨ls₂, hreads₂, ⟨hs, hn⟩, -⟩ := (tries_statement levels).sound hbody
    have hline : LineSpelledBy (some ⟨number, s⟩) (ls₁ ++ ls₂) := hsome hs
    refine ⟨by simpa [Shallow] using hn, ?_⟩
    rcases hend with ⟨i, hi⟩ | ⟨rfl, hsees⟩
    · exact .inl ⟨_, i, (hreads₁.append hreads₂).append hi, hline⟩
    · exact .inr ⟨_, _, hreads₁.append hreads₂, rfl, hline, hsees⟩

theorem lineWithin_complete (hreads : c.Reads ls c₁) (hline : LineSpelledBy line? ls) (hn : Shallow levels line?)
    (hend : (∃ i, c₁.Reads [(.eol, i)] c') ∨ line?.isSome ∧ c₁ = c' ∧ c₁.Sees (· = .eof)) :
    lineWithin levels c = .ok (line?, c') := by
  have hlineEnd : lineEnd c₁ = .ok ((), c') :=
    lineEnd_eq_ok_iff.2 (hend.imp_right fun ⟨_, h⟩ => h)
  have hends : c₁.EndsStatement := by
    rcases hend with ⟨i, hi⟩ | ⟨-, -, hsees⟩
    · exact hi.sees (.inl rfl)
    · exact hsees.mono fun _ ht => .inr ht
  have finish : ∀ {c₀ : Cursor} {body : Option ParsedStmt} (number : Option TokenId),
      eat .number c = .ok (number, c₀) → statement levels c₀ = .ok (body, c₁) →
      lineWithin levels c = .ok (body.map fun s => ⟨number, s⟩, c') := by
    intro c₀ body number hnumber hbody
    rw [lineWithin, bind_eq_of_eq_ok hnumber, bind_eq_of_eq_ok hbody, bind_eq_of_eq_ok hlineEnd]
    rfl
  -- A line without a statement has an end of its own.
  have hnothing : ∀ {c₀ : Cursor}, line? = none → c₀.Reads [] c₁ →
      statement levels c₀ = .ok (none, c₁) := by
    rintro c₀ rfl h
    obtain rfl := Cursor.reads_nil_iff.1 h
    rcases hend with ⟨i, hi⟩ | ⟨hsome, -⟩
    · exact statement_eq_none_iff.2 ⟨rfl, hi.sees rfl⟩
    · cases hsome
  cases hline with
  | empty =>
    refine finish none ?_ (hnothing rfl hreads)
    obtain rfl := Cursor.reads_nil_iff.1 hreads
    exact eat_eq_none_iff.2 ⟨rfl, hends.mono fun t ht => by rcases ht with rfl | rfl <;> simp⟩
  | number n =>
    obtain ⟨c₀, hnumber, hrest⟩ := hreads.uncons
    exact finish (some n) (eat_eq_some_iff.2 hnumber) (hnothing rfl hrest)
  | naked hs =>
    refine finish none ?_ ((tries_statement levels).complete hreads ⟨hs, hn _ rfl⟩ hends)
    obtain ⟨t, i, ls', rfl, ht⟩ := hs.head_ne_number
    exact eat_eq_none_iff.2 ⟨rfl, hreads.sees ht⟩
  | marked n hs =>
    obtain ⟨c₀, hnumber, hrest⟩ := hreads.uncons
    exact finish (some n) (eat_eq_some_iff.2 hnumber)
      ((tries_statement levels).complete hrest ⟨hs, hn _ rfl⟩ hends)

theorem nextLineWithin_eq_none_iff : nextLineWithin levels c = .ok (none, c') ↔ c = c' ∧ c.Sees (· = .eof) := by
  constructor
  · intro h
    obtain ⟨t, ts, hts, h⟩ := peek_bind_eq_ok_iff.1 h
    split at h
    · exact ⟨(pure_eq_ok_iff.1 h).2, t, ts, hts, ‹_›⟩
    · obtain ⟨l, c₁, -, h⟩ := bind_eq_ok_iff.1 h
      exact absurd (pure_eq_ok_iff.1 h).1 (by simp)
  · rintro ⟨rfl, t, ts, hts, rfl⟩
    exact peek_bind_eq_ok_iff.2 ⟨_, ts, hts, by rw [if_pos rfl, pure_eq_ok_iff]; simp⟩

theorem nextLineWithin_eq_some_iff :
    nextLineWithin levels c = .ok (some line?, c') ↔ c.Sees (· ≠ .eof) ∧ lineWithin levels c = .ok (line?, c') := by
  constructor
  · intro h
    obtain ⟨t, ts, hts, h⟩ := peek_bind_eq_ok_iff.1 h
    split at h
    · exact absurd (pure_eq_ok_iff.1 h).1 (by simp)
    · obtain ⟨l, c₁, hl, h⟩ := bind_eq_ok_iff.1 h
      obtain ⟨hline, rfl⟩ := pure_eq_ok_iff.1 h
      cases hline
      exact ⟨⟨t, ts, hts, ‹_›⟩, hl⟩
  · rintro ⟨⟨t, ts, hts, ht⟩, hl⟩
    refine peek_bind_eq_ok_iff.2 ⟨t, ts, hts, ?_⟩
    rw [if_neg ht, bind_eq_of_eq_ok hl]
    rfl

/-- Lines up to the end of the text spell a program. Only the last line may lack its end. -/
theorem repeats_nextLineWithin_sound {lines? : List (Option ParsedLine)}
    (h : Repeats (nextLineWithin levels) c lines? c') :
    c'.Sees (· = .eof) ∧ (∀ line? ∈ lines?, Shallow levels line?) ∧
      ∃ ls, c.Reads ls c' ∧ SpelledBy (lines?.filterMap id) ls := by
  induction h with
  | stop h =>
    obtain ⟨rfl, hsees⟩ := nextLineWithin_eq_none_iff.1 h
    exact ⟨hsees, by simp, [], .done _, .nil⟩
  | @more c c₁ c' line? lines? h hmore ih =>
    obtain ⟨hsees, hn, ls', hreads', hlines⟩ := ih
    obtain ⟨-, h⟩ := nextLineWithin_eq_some_iff.1 h
    obtain ⟨hshallow, ⟨ls, i, hreads, hline⟩ | ⟨ls, line, hreads, rfl, hline, heof⟩⟩ := lineWithin_sound h
    · refine ⟨hsees, List.forall_mem_cons.2 ⟨hshallow, hn⟩, _, hreads.append hreads', ?_⟩
      have hfilter : (line? :: lines?).filterMap id = line?.toList ++ lines?.filterMap id := by
        cases line? <;> simp
      rw [hfilter]
      simpa using SpelledBy.line i hline hlines
    · -- Behind a line without an end there is nothing.
      cases hmore with
      | stop h' =>
        obtain ⟨rfl, -⟩ := nextLineWithin_eq_none_iff.1 h'
        exact ⟨hsees, List.forall_mem_cons.2 ⟨hshallow, by simp⟩, ls, hreads, by simpa using .last hline⟩
      | more h' _ =>
        obtain ⟨hne, -⟩ := nextLineWithin_eq_some_iff.1 h'
        obtain ⟨t, ht, hne⟩ := heof.exists_both hne
        exact absurd ht hne

/-- A program does not begin with a tag that no rule uses. -/
theorem SpelledBy.sees_ne_eof (h : SpelledBy lines ls) (hreads : c.Reads ls c') (hls : ls ≠ []) :
    c.Sees (· ≠ .eof) := by
  obtain ⟨⟨t, i⟩, ls', rfl⟩ := List.exists_cons_of_ne_nil hls
  exact hreads.sees (properLeaves_cons.1 h.proper).1.1

theorem LineSpelledBy.ne_nil {line : ParsedLine} (h : LineSpelledBy (some line) ls) : ls ≠ [] := by
  rintro rfl
  cases h with
  | naked hs => cases hs

/-- A line with its end is read, whatever comes behind it. -/
theorem nextLineWithin_complete {ls' : List Leaf} {i : TokenId} (hreads : c.Reads (ls ++ (.eol, i) :: ls') c')
    (hline : LineSpelledBy line? ls) (hn : Shallow levels line?) :
    ∃ c₁, nextLineWithin levels c = .ok (some line?, c₁) ∧ c₁.Reads ls' c' := by
  obtain ⟨c₀, hreads₀, hrest⟩ := Cursor.reads_append_iff.1 hreads
  obtain ⟨c₁, hi, hrest⟩ := hrest.uncons
  have hl := lineWithin_complete hreads₀ hline hn (.inl ⟨i, hi⟩)
  have hsees := (SpelledBy.line i hline .nil).sees_ne_eof (hreads₀.append hi) (by simp)
  exact ⟨c₁, nextLineWithin_eq_some_iff.2 ⟨hsees, hl⟩, hrest⟩

theorem repeats_nextLineWithin_complete (hreads : c.Reads ls c') (h : SpelledBy lines ls)
    (hn : ∀ line ∈ lines, line.body.nesting ≤ levels) (hend : c'.Sees (· = .eof)) :
    ∃ lines?, Repeats (nextLineWithin levels) c lines? c' ∧ lines?.filterMap id = lines := by
  induction h generalizing c with
  | nil =>
    obtain rfl := Cursor.reads_nil_iff.1 hreads
    exact ⟨[], .stop (nextLineWithin_eq_none_iff.2 ⟨rfl, hend⟩), rfl⟩
  | @last line ls hline =>
    have hl := lineWithin_complete hreads hline (by simpa [Shallow] using hn) (.inr ⟨rfl, rfl, hend⟩)
    have hsees := (SpelledBy.last hline).sees_ne_eof hreads hline.ne_nil
    refine ⟨[some line], .more (nextLineWithin_eq_some_iff.2 ⟨hsees, hl⟩)
      (.stop (nextLineWithin_eq_none_iff.2 ⟨rfl, hend⟩)), rfl⟩
  | @line line? lines ls ls' i hline _ ih =>
    simp only [List.mem_append, Option.mem_toList, or_imp, forall_and] at hn
    obtain ⟨c₁, hnext, hrest⟩ := nextLineWithin_complete hreads hline hn.1
    obtain ⟨lines?, hmore, rfl⟩ := ih hrest hn.2
    refine ⟨line? :: lines?, .more hnext hmore, ?_⟩
    cases line? <;> simp

theorem tries_nextLineWithin :
    Tries (nextLineWithin levels) (fun _ _ => True) (fun _ => False) fun c => c.Sees (· = .eof) where
  sound := by
    intro c c' line? h
    obtain ⟨hne, h⟩ := nextLineWithin_eq_some_iff.1 h
    obtain ⟨-, ⟨ls, i, hreads, -⟩ | ⟨ls, line, hreads, -, -, heof⟩⟩ := lineWithin_sound h
    · exact ⟨_, hreads, trivial, by simp⟩
    · refine ⟨ls, hreads, trivial, ?_⟩
      rintro rfl
      obtain rfl := Cursor.reads_nil_iff.1 hreads
      obtain ⟨t, ht, hne⟩ := heof.exists_both hne
      exact hne ht
  complete _ _ h := h.elim
  nothing := by
    intro c c' h
    obtain ⟨rfl, t, ts, hts, -⟩ := nextLineWithin_eq_none_iff.1 h
    exact ⟨rfl, by simp [hts]⟩
  stops h := nextLineWithin_eq_none_iff.2 ⟨rfl, h⟩

/-- Parsing a program repeats the parser of lines, until the text ends. -/
theorem programWithin_eq_ok_iff_repeats : programWithin levels c = .ok (lines, c') ↔
    ∃ lines?, Repeats (nextLineWithin levels) c lines? c' ∧ lines?.filterMap id = lines := by
  simp only [programWithin, bind_eq_ok_iff, pure_eq_ok_iff]
  constructor
  · rintro ⟨lines?, c₁, h, rfl, rfl⟩
    exact ⟨lines?, manyUpTo_repeats h, rfl⟩
  · rintro ⟨lines?, h, rfl⟩
    exact ⟨lines?, c', h.manyUpTo tries_nextLineWithin (Nat.le_refl _), rfl, rfl⟩

theorem programWithin_eq_ok_iff : programWithin levels c = .ok (lines, c') ↔ c'.Sees (· = .eof) ∧
    (∀ line ∈ lines, line.body.nesting ≤ levels) ∧ ∃ ls, c.Reads ls c' ∧ SpelledBy lines ls := by
  rw [programWithin_eq_ok_iff_repeats]
  constructor
  · rintro ⟨lines?, h, rfl⟩
    obtain ⟨hend, hn, hreads⟩ := repeats_nextLineWithin_sound h
    refine ⟨hend, fun line hline => ?_, hreads⟩
    obtain ⟨line?, hline?, hid⟩ := List.mem_filterMap.1 hline
    exact hn line? hline? line hid
  · rintro ⟨hend, hn, ls, hreads, h⟩
    exact repeats_nextLineWithin_complete hreads h hn hend

theorem SpelledBy.proper_of_mem {tags : List Tag} {n : Nat} (h : SpelledBy lines (tags.zipIdx n)) {t : Tag}
    (ht : t ∈ tags) : t.Proper := by
  rw [← List.zipIdx_map_fst n tags] at ht
  obtain ⟨l, hl, rfl⟩ := List.mem_map.1 ht
  exact h.proper l hl

theorem parse_eq_ok_iff_program {tags : List Tag} :
    parse tags = .ok lines ↔ ∃ c, program ⟨0, tags⟩ = .ok (lines, c) := by
  rw [parse]
  cases program ⟨0, tags⟩ with
  | error e => simp [Except.map]
  | ok r => simp [Except.map, Prod.ext_iff]

theorem parse_eq_error_iff {tags : List Tag} {e : ParseFailure} :
    parse tags = .error e ↔ program ⟨0, tags⟩ = .error e := by
  rw [parse]
  cases program ⟨0, tags⟩ <;> simp [Except.map]

/-- Parsing succeeds exactly if the tags in front of the first end of the text spell a program. -/
theorem parse_eq_ok_iff {tags : List Tag} : parse tags = .ok lines ↔
    ∃ front rest, tags = front ++ .eof :: rest ∧ .eof ∉ front ∧ Derives front lines := by
  simp only [parse_eq_ok_iff_program, program_eq, programWithin_eq_ok_iff]
  constructor
  · -- What is read is derived, so the end of the text is not among it and this is the first one.
    rintro ⟨⟨position, rest⟩, ⟨t, ts, hts, rfl⟩, hn, ls, hreads, h⟩
    obtain ⟨front, htags, hls, -⟩ := Cursor.reads_iff.1 hreads
    dsimp only at hts htags hls
    subst hts hls
    exact ⟨front, ts, htags, fun heof => (h.proper_of_mem heof).1 rfl, h, hn⟩
  · rintro ⟨front, rest, rfl, -, h, hn⟩
    refine ⟨⟨front.length, .eof :: rest⟩, ⟨_, rest, rfl, rfl⟩, hn, _, ?_, h⟩
    exact Cursor.reads_iff.2 ⟨front, rfl, rfl, by simp⟩

theorem Derives.parse_eq {tags : List Tag} (h : Derives tags lines) (rest : List Tag) :
    parse (tags ++ .eof :: rest) = .ok lines :=
  parse_eq_ok_iff.2 ⟨tags, rest, rfl, fun heof => (h.1.proper_of_mem heof).1 rfl, h⟩

/-- Tags spell at most one program within the limit on nesting. -/
theorem Derives.unique {tags : List Tag} {lines' : List ParsedLine} (h : Derives tags lines)
    (h' : Derives tags lines') : lines = lines' :=
  Except.ok.inj ((h.parse_eq []).symm.trans (h'.parse_eq []))

end Grammar

end LineBasic

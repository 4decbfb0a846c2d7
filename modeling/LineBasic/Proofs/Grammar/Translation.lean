import Mathlib.Data.List.Basic
import LineBasic.Proofs.Grammar.Prediction

/-!
# Parsing from another position

The parsers of the grammar look at tags, never at positions. At the same tags but a number of positions further on they
do the same: the tokens of what they find, and of what they complain about, stand that number of positions further on.
So lines that are put in front of a text leave what it is parsed to as it is, up to its positions.

## Main definitions

* `Cursor.moved`, `Expr.moved`, `Stmt.moved`, `Line.moved`, `ParseFailure.moved`: the same a number of positions further
  on.
* `Parser.Translates`: what one parser does further on is what another one does.
* `Parser.Finds`: what a repetition has found up to a cursor.
* `EndsLine`: tags that are cut behind a line end.

## Main results

* `Parser.Translates.bind`, `Parser.Translates.many`: how parsers that translate others are put together.
* `Grammar.translates_nextLineWithin`: the parser of lines.
* `Grammar.parse_append_of_ok`, `Grammar.parse_append_of_wrong`: lines in front of a text.
-/

namespace LineBasic

/-- The same tags, a number of positions further on. -/
def Cursor.moved (d : Nat) (c : Cursor) : Cursor := ⟨c.position + d, c.rest⟩

/-- The expression whose tokens stand a number of positions further on. -/
def Expr.moved (d : Nat) : {l : Level} → ParsedExpr l → ParsedExpr l
  | _, .var v => .var (v + d)
  | _, .number n => .number (n + d)
  | _, .group e => .group (e.moved d)
  | _, .abs mark e => .abs (mark + d) (e.moved d)
  | _, .rnd mark e => .rnd (mark + d) (e.moved d)
  | _, .mod mark e₁ e₂ => .mod (mark + d) (e₁.moved d) (e₂.moved d)
  | _, .factor a => .factor (a.moved d)
  | _, .scale p o a => .scale (p.moved d) o (a.moved d)
  | _, .signed s p => .signed s (p.moved d)
  | _, .add e s p => .add (e.moved d) s (p.moved d)

@[inherit_doc Expr.moved]
def Item.moved (d : Nat) : ParsedItem → ParsedItem
  | .text s => .text (s + d)
  | .value e => .value (e.moved d)

/-- The statement whose tokens stand a number of positions further on. -/
def Stmt.moved (d : Nat) : ParsedStmt → ParsedStmt
  | .print mark item more => .print (mark + d) (item.moved d) (more.map (Item.moved d))
  | .input mark v more => .input (mark + d) (v + d) (more.map (· + d))
  | .assign v e => .assign (v + d) (e.moved d)
  | .branch mark e₁ r relation e₂ body =>
    .branch (mark + d) (e₁.moved d) r (relation + d) (e₂.moved d) (body.moved d)
  | .goto mark e => .goto (mark + d) (e.moved d)
  | .gosub mark e => .gosub (mark + d) (e.moved d)
  | .action mark a => .action (mark + d) a

@[inherit_doc Stmt.moved]
def Line.moved (d : Nat) (line : ParsedLine) : ParsedLine := ⟨line.number.map (· + d), line.body.moved d⟩

/-- The complaint about a token that stands a number of positions further on. -/
def SyntaxError.moved (d : Nat) (e : SyntaxError) : SyntaxError := ⟨e.complaint, e.token + d⟩

@[inherit_doc SyntaxError.moved]
def ParseFailure.moved (d : Nat) : ParseFailure → ParseFailure
  | .wrong e => .wrong (e.moved d)
  | .outOfTokens => .outOfTokens

theorem Expr.moved_ofFactors (d : Nat) (a : ParsedExpr .operand) (more : List (Scale × ParsedExpr .operand)) :
    (Expr.ofFactors a more).moved d = Expr.ofFactors (a.moved d) (more.map (Prod.map id (Expr.moved d))) := by
  rw [ofFactors, ofFactors, List.foldl_map]
  exact (List.foldl_hom (Expr.moved d) fun _ _ => rfl).symm

theorem Expr.moved_ofTerms (d : Nat) (s : Sign) (p : ParsedExpr .product) (more : List (Sign × ParsedExpr .product)) :
    (Expr.ofTerms s p more).moved d = Expr.ofTerms s (p.moved d) (more.map (Prod.map id (Expr.moved d))) := by
  rw [ofTerms, ofTerms, List.foldl_map]
  exact (List.foldl_hom (Expr.moved d) fun _ _ => rfl).symm

namespace Parser

variable {α β : Type} {d : Nat}

/-- Further on, the second parser does what the first one does, and finds what that becomes further on. -/
def Translates (d : Nat) (move : α → α) (p q : Parser α) : Prop :=
  ∀ c, q (c.moved d) = match p c with
    | .ok (a, c') => .ok (move a, c'.moved d)
    | .error e => .error (e.moved d)

namespace Translates

variable {move : α → α} {move' : β → β} {p q : Parser α} {f g : α → Parser β} {c c' : Cursor} {a : α}

theorem ok (h : Translates d move p q) (hp : p c = .ok (a, c')) : q (c.moved d) = .ok (move a, c'.moved d) := by
  rw [h c, hp]

theorem error (h : Translates d move p q) {e : ParseFailure} (hp : p c = .error e) :
    q (c.moved d) = .error (e.moved d) := by
  rw [h c, hp]

theorem pure {b : α} (h : move a = b) : Translates d move (pure a) (pure b) := by
  intro c
  rw [← h]
  rfl

theorem bind (h : Translates d move p q) (hf : ∀ a, Translates d move' (f a) (g (move a))) :
    Translates d move' (p >>= f) (q >>= g) := by
  intro c
  cases hp : p c with
  | error e =>
    have hbind : (p >>= f) c = .error e := bind_eq_error_iff.2 (.inl hp)
    rw [hbind]
    exact bind_eq_error_iff.2 (.inl (h.error hp))
  | ok r =>
    obtain ⟨a, c'⟩ := r
    rw [bind_eq_of_eq_ok (h.ok hp), bind_eq_of_eq_ok hp]
    exact hf a c'

theorem peek : Translates d id peek peek := by
  rintro ⟨i, _ | ⟨t, ts⟩⟩ <;> rfl

theorem advance : Translates d (· + d) advance advance := by
  rintro ⟨i, ts⟩
  simp only [Parser.advance, Cursor.moved, Nat.add_right_comm]

theorem complain (k : Complaint) : Translates d move (complain k) (complain k) := fun _ => rfl

theorem eat (t : Tag) : Translates d (Option.map (· + d)) (eat t) (eat t) := by
  refine .bind .peek fun u => ?_
  dsimp only [id]
  split
  · exact .bind .advance fun _ => .pure rfl
  · exact .pure rfl

theorem expect (t : Tag) : Translates d (· + d) (expect t) (expect t) := by
  refine .bind .peek fun u => ?_
  dsimp only [id]
  split
  · exact .advance
  · exact .complain _

theorem manyUpTo {step step' : Parser (Option α)} (h : Translates d (Option.map move) step step') (n : Nat) :
    Translates d (List.map move) (manyUpTo step n) (manyUpTo step' n) := by
  induction n with
  | zero => exact fun _ => rfl
  | succ n ih =>
    refine .bind h fun a? => ?_
    cases a? with
    | none => exact .pure rfl
    | some a => exact .bind ih fun _ => .pure rfl

theorem many {step step' : Parser (Option α)} (h : Translates d (Option.map move) step step') :
    Translates d (List.map move) (many step) (many step') :=
  fun c => h.manyUpTo c.rest.length c

theorem repeats {step step' : Parser (Option α)} (h : Translates d (Option.map move) step step') {as : List α}
    (hrepeats : Repeats step c as c') : Repeats step' (c.moved d) (as.map move) (c'.moved d) := by
  induction hrepeats with
  | stop hstep => exact .stop (h.ok hstep)
  | more hstep _ ih => exact .more (h.ok hstep) ih

theorem interrupts {step step' : Parser (Option α)} (h : Translates d (Option.map move) step step') {e : SyntaxError}
    (hinterrupts : Interrupts step c e) : Interrupts step' (c.moved d) (e.moved d) := by
  induction hinterrupts with
  | stop hstep => exact .stop (h.error hstep)
  | more hstep _ ih => exact .more (h.ok hstep) ih

end Translates

/-- What a repetition has found up to a cursor, at which it need not stop. -/
inductive Finds (step : Parser (Option α)) : Cursor → List α → Cursor → Prop
  | nothing (c : Cursor) : Finds step c [] c
  | more {c c' c'' : Cursor} {a : α} {as : List α} (h : step c = .ok (some a, c'))
      (hmore : Finds step c' as c'') : Finds step c (a :: as) c''

namespace Finds

variable {step : Parser (Option α)} {c c' c'' : Cursor} {as bs : List α}

theorem repeats (h : Finds step c as c') (h' : Repeats step c' bs c'') : Repeats step c (as ++ bs) c'' := by
  induction h with
  | nothing => exact h'
  | more hstep _ ih => exact .more hstep (ih h')

theorem interrupts (h : Finds step c as c') {e : SyntaxError} (h' : Interrupts step c' e) : Interrupts step c e := by
  induction h with
  | nothing => exact h'
  | more hstep _ ih => exact .more hstep (ih h')

end Finds

end Parser

/-- Tags that are cut behind a line end, or there are none. -/
def EndsLine (tags : List Tag) : Prop := tags = [] ∨ tags.getLast? = some .eol

theorem EndsLine.of_append {front tags : List Tag} (h : EndsLine (front ++ tags)) : EndsLine tags := by
  by_cases htags : tags = []
  · exact .inl htags
  · rcases h with h | h
    · exact .inl (List.append_eq_nil_iff.1 h).2
    · rw [List.getLast?_append, List.getLast?_eq_some_getLast htags, Option.some_or] at h
      exact .inr ((List.getLast?_eq_some_getLast htags).trans h)

theorem InnerLeaves.not_endsLine {ls : List Leaf} (h : InnerLeaves ls) (hls : ls ≠ []) :
    ¬ EndsLine (ls.map Prod.fst) := by
  rintro (hnil | hlast)
  · exact hls (List.map_eq_nil_iff.1 hnil)
  · obtain ⟨l, hl, heol⟩ := List.mem_map.1 (List.mem_of_mem_getLast? hlast)
    exact (h l hl).2 heol

namespace Grammar

open LineBasic.Parser

variable {d levels : Nat}

section Expressions

variable {nested : Parser (ParsedExpr .sum)}

theorem translates_arguments (h : Translates d (Expr.moved d) nested nested) (mark : TokenId) (f : Builtin) :
    Translates d (Expr.moved d) (arguments nested mark f) (arguments nested (mark + d) f) := by
  -- A sum, with its closing parenthesis.
  have closed : ∀ {g g' : ParsedExpr .sum → ParsedExpr .operand}, (∀ e, (g e).moved d = g' (e.moved d)) →
      Translates d (Expr.moved d) (do let e ← nested; let _ ← expect .rparen; return g e)
        (do let e ← nested; let _ ← expect .rparen; return g' e) := fun hg =>
    .bind h fun e => .bind (.expect _) fun _ => .pure (hg e)
  cases f with
  | abs => exact .bind (.expect _) fun _ => closed fun _ => rfl
  | rnd => exact .bind (.expect _) fun _ => closed fun _ => rfl
  | mod => exact .bind (.expect _) fun _ => .bind h fun _ => .bind (.expect _) fun _ => closed fun _ => rfl

theorem translates_operand (h : Translates d (Expr.moved d) nested nested) :
    Translates d (Expr.moved d) (operand nested) (operand nested) := by
  refine .bind .peek fun t => ?_
  cases t with
  | var => exact .bind .advance fun _ => .pure rfl
  | number => exact .bind .advance fun _ => .pure rfl
  | lparen => exact .bind .advance fun _ => .bind h fun _ => .bind (.expect _) fun _ => .pure rfl
  | builtin f => exact .bind .advance fun mark => translates_arguments h mark f
  | _ => exact .complain _

theorem translates_nextFactor (h : Translates d (Expr.moved d) nested nested) :
    Translates d (Option.map (Prod.map id (Expr.moved d))) (nextFactor nested) (nextFactor nested) := by
  refine .bind .peek fun t => ?_
  cases t with
  | scale o => exact .bind .advance fun _ => .bind (translates_operand h) fun _ => .pure rfl
  | _ => exact .pure rfl

theorem translates_product (h : Translates d (Expr.moved d) nested nested) :
    Translates d (Expr.moved d) (product nested) (product nested) :=
  .bind (translates_operand h) fun a => .bind (translates_nextFactor h).many fun more =>
    .pure (Expr.moved_ofFactors d a more)

theorem translates_leadingSign : Translates d id leadingSign leadingSign := by
  refine .bind .peek fun t => ?_
  cases t with
  | sign s => exact .bind .advance fun _ => .pure rfl
  | _ => exact .pure rfl

theorem translates_nextTerm (h : Translates d (Expr.moved d) nested nested) :
    Translates d (Option.map (Prod.map id (Expr.moved d))) (nextTerm nested) (nextTerm nested) := by
  refine .bind .peek fun t => ?_
  cases t with
  | sign s => exact .bind .advance fun _ => .bind (translates_product h) fun _ => .pure rfl
  | _ => exact .pure rfl

theorem translates_sum (h : Translates d (Expr.moved d) nested nested) :
    Translates d (Expr.moved d) (sum nested) (sum nested) :=
  .bind translates_leadingSign fun s => .bind (translates_product h) fun p => .bind (translates_nextTerm h).many
    fun more => .pure (Expr.moved_ofTerms d s p more)

theorem translates_expression (levels : Nat) :
    Translates d (Expr.moved d) (expression levels) (expression levels) := by
  induction levels with
  | zero => exact .complain _
  | succ levels ih => exact translates_sum ih

end Expressions

section Statements

variable {value : Parser (ParsedExpr .sum)}

theorem translates_item (h : Translates d (Expr.moved d) value value) :
    Translates d (Item.moved d) (item value) (item value) := by
  refine .bind (.eat _) fun s? => ?_
  cases s? with
  | some s => exact .pure rfl
  | none => exact .bind h fun _ => .pure rfl

theorem translates_afterComma {α : Type} {move : α → α} {p : Parser α} (h : Translates d move p p) :
    Translates d (Option.map move) (afterComma p) (afterComma p) := by
  refine .bind (.eat _) fun i? => ?_
  cases i? with
  | some i => exact .bind h fun _ => .pure rfl
  | none => exact .pure rfl

theorem translates_printStatement (h : Translates d (Expr.moved d) value value) :
    Translates d (Stmt.moved d) (printStatement value) (printStatement value) :=
  .bind .advance fun _ => .bind (translates_item h) fun _ =>
    .bind (translates_afterComma (translates_item h)).many fun _ => .pure rfl

theorem translates_inputStatement : Translates d (Stmt.moved d) inputStatement inputStatement :=
  .bind .advance fun _ => .bind (.expect _) fun _ => .bind (translates_afterComma (.expect _)).many fun _ => .pure rfl

theorem translates_letStatement (h : Translates d (Expr.moved d) value value) :
    Translates d (Stmt.moved d) (letStatement value) (letStatement value) :=
  .bind .advance fun _ => .bind (.expect _) fun _ => .bind (.expect _) fun _ => .bind h fun _ => .pure rfl

theorem translates_relation : Translates d (Prod.map id (· + d)) relation relation := by
  refine .bind .peek fun t => ?_
  cases t with
  | comparison r => exact .bind .advance fun _ => .pure rfl
  | _ => exact .complain _

theorem translates_ifStatement {body : Parser (Option ParsedStmt)} (h : Translates d (Expr.moved d) value value)
    (hbody : Translates d (Option.map (Stmt.moved d)) body body) :
    Translates d (Stmt.moved d) (ifStatement value body) (ifStatement value body) := by
  refine .bind .advance fun _ => .bind h fun _ => .bind translates_relation fun _ => .bind h fun _ =>
    .bind (.expect _) fun _ => .bind hbody fun s? => ?_
  cases s? with
  | some s => exact .pure rfl
  | none => exact .complain _

theorem translates_statementWith {conditional : Parser ParsedStmt} (h : Translates d (Expr.moved d) value value)
    (hconditional : Translates d (Stmt.moved d) conditional conditional) :
    Translates d (Option.map (Stmt.moved d)) (statementWith value conditional) (statementWith value conditional) := by
  refine .bind .peek fun t => ?_
  cases t with
  | eol => exact .pure rfl
  | keyword k =>
    cases k with
    | print => exact .bind (translates_printStatement h) fun _ => .pure rfl
    | input => exact .bind translates_inputStatement fun _ => .pure rfl
    | «let» => exact .bind (translates_letStatement h) fun _ => .pure rfl
    | «if» => exact .bind hconditional fun _ => .pure rfl
    | goto | gosub => exact .bind .advance fun _ => .bind h fun _ => .pure rfl
    | «return» | clear | list | run | «end» => exact .bind .advance fun _ => .pure rfl
    | «then» => exact .complain _
  | _ => exact .complain _

theorem translates_statement (levels : Nat) :
    Translates d (Option.map (Stmt.moved d)) (statement levels) (statement levels) := by
  induction levels with
  | zero => exact translates_statementWith (translates_expression 0) (.complain _)
  | succ levels ih =>
    exact translates_statementWith (translates_expression (levels + 1))
      (translates_ifStatement (translates_expression levels) ih)

end Statements

theorem translates_lineEnd : Translates d id lineEnd lineEnd := by
  refine .bind (.eat _) fun i? => ?_
  cases i? with
  | some i => exact .pure rfl
  | none =>
    refine .bind .peek fun t => ?_
    dsimp only [id]
    split
    · exact .pure rfl
    · exact .complain _

theorem translates_lineWithin (levels : Nat) :
    Translates d (Option.map (Line.moved d)) (lineWithin levels) (lineWithin levels) :=
  .bind (.eat _) fun _ => .bind (translates_statement levels) fun body => .bind translates_lineEnd fun _ =>
    .pure (by cases body <;> rfl)

theorem translates_nextLineWithin (levels : Nat) :
    Translates d (Option.map (Option.map (Line.moved d))) (nextLineWithin levels) (nextLineWithin levels) := by
  refine .bind .peek fun t => ?_
  dsimp only [id]
  split
  · exact .pure rfl
  · exact .bind (translates_lineWithin levels) fun _ => .pure rfl

/-! ### Lines in front of a text -/

variable {c c' : Cursor} {lines : List ParsedLine} {ls : List Leaf}

/-- Lines that all have their ends are found before anything behind them is looked at. -/
theorem SpelledBy.finds (h : SpelledBy lines ls) (hreads : c.Reads ls c') (hend : EndsLine (ls.map Prod.fst))
    (hn : ∀ line ∈ lines, line.body.nesting ≤ levels) :
    ∃ lines?, Finds (nextLineWithin levels) c lines? c' ∧ lines?.filterMap id = lines := by
  induction h generalizing c with
  | nil =>
    obtain rfl := Cursor.reads_nil_iff.1 hreads
    exact ⟨[], .nothing c, rfl⟩
  | last hline => exact absurd hend (InnerLeaves.not_endsLine hline.inner hline.ne_nil)
  | @line line? lines ls ls' i hline _ ih =>
    simp only [List.mem_append, Option.mem_toList, or_imp, forall_and] at hn
    rw [List.map_append, List.map_cons, List.append_cons] at hend
    obtain ⟨c₁, hnext, hrest⟩ := nextLineWithin_complete hreads hline hn.1
    obtain ⟨lines?, hmore, rfl⟩ := ih hrest hend.of_append hn.2
    refine ⟨line? :: lines?, .more hnext hmore, ?_⟩
    cases line? <;> simp

/-- A complaint about a program is one about one of its lines. -/
theorem programWithin_eq_wrong_iff {e : SyntaxError} :
    programWithin levels c = .error (.wrong e) ↔ Interrupts (nextLineWithin levels) c e := by
  rw [programWithin, bind_eq_error_iff]
  constructor
  · rintro (h | ⟨lines?, c', -, h⟩)
    · exact manyUpTo_interrupts h
    · cases h
  · exact fun h => .inl (h.manyUpTo tries_nextLineWithin (fun _ => rfl) (Nat.le_refl _))

section Front

variable {front tags : List Tag}

/-- Tags that parse if the text ends behind them and that are cut behind a line end are lines that are found in front of
anything. -/
theorem finds_of_parse (hend : EndsLine front) (heof : .eof ∉ front) (h : parse (front ++ [.eof]) = .ok lines)
    (tags : List Tag) : ∃ lines?, Finds (nextLineWithin maxNesting) ⟨0, front ++ tags⟩ lines? ⟨front.length, tags⟩ ∧
      lines?.filterMap id = lines := by
  obtain ⟨front', rest, htags, -, hspelled, hn⟩ := parse_eq_ok_iff.1 h
  obtain ⟨rfl, -⟩ := (List.append_cons_inj_of_notMem heof List.not_mem_nil).1 htags
  refine hspelled.finds (Cursor.reads_iff.2 ⟨front, rfl, rfl, by simp⟩) ?_ hn
  rwa [leavesOf, List.zipIdx_map_fst]

/-- Lines in front of a text that parses come in front of its lines. -/
theorem parse_append_of_ok (hend : EndsLine front) (heof : .eof ∉ front) (h : parse (front ++ [.eof]) = .ok lines)
    {lines' : List ParsedLine} (h' : parse tags = .ok lines') :
    parse (front ++ tags) = .ok (lines ++ lines'.map (Line.moved front.length)) := by
  obtain ⟨lines?, hfinds, rfl⟩ := finds_of_parse hend heof h tags
  obtain ⟨c, hprogram⟩ := parse_eq_ok_iff_program.1 h'
  obtain ⟨more?, hrepeats, rfl⟩ := programWithin_eq_ok_iff_repeats.1 hprogram
  have hmoved := (translates_nextLineWithin maxNesting).repeats (d := front.length) hrepeats
  rw [Cursor.moved, Nat.zero_add] at hmoved
  refine parse_eq_ok_iff_program.2 ⟨_, programWithin_eq_ok_iff_repeats.2 ⟨_, hfinds.repeats hmoved, ?_⟩⟩
  rw [List.filterMap_append, List.filterMap_map, List.map_filterMap]
  rfl

/-- Lines in front of a text do not change what is wrong with it. -/
theorem parse_append_of_wrong (hend : EndsLine front) (heof : .eof ∉ front) (h : parse (front ++ [.eof]) = .ok lines)
    {e : SyntaxError} (h' : parse tags = .error (.wrong e)) :
    parse (front ++ tags) = .error (.wrong (e.moved front.length)) := by
  obtain ⟨lines?, hfinds, -⟩ := finds_of_parse hend heof h tags
  have hinterrupts := programWithin_eq_wrong_iff.1 (parse_eq_error_iff.1 h')
  have hmoved := (translates_nextLineWithin maxNesting).interrupts (d := front.length) hinterrupts
  rw [Cursor.moved, Nat.zero_add] at hmoved
  exact parse_eq_error_iff.2 (programWithin_eq_wrong_iff.2 (hfinds.interrupts hmoved))

end Front

end Grammar

end LineBasic

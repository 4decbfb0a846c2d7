import LineBasic.Grammar.Recorder
import LineBasic.Proofs.Grammar.FirstError
import LineBasic.Proofs.Grammar.Ending
import LineBasic.Proofs.Program.Parsed

/-!
# What the record of a parser shows

A parser that keeps a record finds the same as one that keeps none. The record shows that it never looks behind the
first end of the text, that it leaves each level of nesting that it enters, and that it raises at most the error that
it fails with.

## Main definitions

* `Record.GoesOn`: how the record of a parser goes on.
* `Records`: what a recorder gives besides the result of a parser.
* `Follows`: a recorder that does what a parser does.
* `EndsAt`: the first end of the text in a list of tags.

## Main results

* `Follows.bind`, `Follows.many`, `Follows.deeper`: how recorders are put together.
* `Grammar.follows_expression`, `Grammar.follows_statement`, `Grammar.follows_program`: the recorders of the language.
* `Grammar.run_within_end`: what the parser of programs reads and what it leaves behind.
-/

namespace LineBasic

namespace Record

/-- The place of a record in a list of tags. -/
def cursor (tags : List Tag) (r : Record) : Cursor := ⟨r.position, tags.drop r.position⟩

/-- A record goes on: the parser has not gone back, it is on the same level of nesting again, and it has looked at no
tag behind its place. -/
structure GoesOn (r r' : Record) : Prop where
  position : r.position ≤ r'.position
  depth : r'.depth = r.depth
  looked : ∀ i ∈ r'.looked, i ∈ r.looked ∨ i ≤ r'.position

theorem GoesOn.refl (r : Record) : r.GoesOn r where
  position := Nat.le_refl _
  depth := rfl
  looked _ hi := .inl hi

theorem GoesOn.trans {r r' r'' : Record} (h : r.GoesOn r') (h' : r'.GoesOn r'') : r.GoesOn r'' where
  position := Nat.le_trans h.position h'.position
  depth := h'.depth.trans h.depth
  looked i hi := by
    rcases h'.looked i hi with hi | hi
    · exact (h.looked i hi).imp_right fun hi => Nat.le_trans hi h'.position
    · exact .inr hi

end Record

/-- What a recorder gives, compared with what a parser gives at the same place: the same result, with a record that
goes on. A failure adds its error to the record; without tags to come, the last look went behind the last tag. -/
inductive Records {α : Type} (tags : List Tag) (r : Record) :
    Except ParseFailure (α × Cursor) → Except ParseFailure α × Record → Prop
  | found {a : α} {r' : Record} (hr : r.GoesOn r') (herrors : r'.errors = r.errors) :
      Records tags r (.ok (a, r'.cursor tags)) (.ok a, r')
  | wrong {e : SyntaxError} {r' : Record} (hr : r.GoesOn r') (herrors : r'.errors = r.errors ++ [e])
      (he : e.token = r'.position) : Records tags r (.error (.wrong e)) (.error (.wrong e), r')
  | out {r' : Record} (hr : r.GoesOn r') (herrors : r'.errors = r.errors)
      (hlook : ∃ i ∈ r'.looked, tags.length ≤ i) :
      Records tags r (.error .outOfTokens) (.error .outOfTokens, r')

/-- On a level of nesting, the recorder does what the parser does. -/
def Follows {α : Type} (depth : Nat) (p : Parser α) (q : Recorder α) : Prop :=
  ∀ (tags : List Tag) (r : Record), r.depth = depth → Records tags r (p (r.cursor tags)) (q tags r)

section Combinators

variable {α β : Type} {tags : List Tag} {r r' : Record} {d : Nat} {p : Parser α} {q : Recorder α}

theorem Records.of_goesOn {x : Except ParseFailure (α × Cursor)} {y : Except ParseFailure α × Record}
    (h : Records tags r' x y) (hr : r.GoesOn r') (herrors : r'.errors = r.errors) : Records tags r x y := by
  cases h with
  | found hr' herrors' => exact .found (hr.trans hr') (herrors'.trans herrors)
  | wrong hr' herrors' he => exact .wrong (hr.trans hr') (by rw [herrors', herrors]) he
  | out hr' herrors' hlook => exact .out (hr.trans hr') (herrors'.trans herrors) hlook

/-- The second recorder goes on from the record of the first one. -/
theorem Recorder.bind_apply (q : Recorder α) (g : α → Recorder β) (tags : List Tag) (r : Record) :
    (q >>= g) tags r =
      ExceptT.bindCont (m := StateM Record) (fun a => g a tags) (q tags r).1 (q tags r).2 :=
  rfl

theorem Recorder.bind_of_ok {a : α} (h : q tags r = (.ok a, r')) (g : α → Recorder β) :
    (q >>= g) tags r = g a tags r' := by
  rw [bind_apply, h]
  rfl

theorem Recorder.bind_of_error {e : ParseFailure} (h : q tags r = (.error e, r')) (g : α → Recorder β) :
    (q >>= g) tags r = (.error e, r') := by
  rw [bind_apply, h]
  rfl

/-- One recorder behind another one. The second one starts where the first one has come to. -/
theorem Records.bind {c : Cursor} {f : α → Parser β} {g : α → Recorder β} (h : Records tags r (p c) (q tags r))
    (hf : ∀ a r', p c = .ok (a, r'.cursor tags) → r.GoesOn r' →
      Records tags r' (f a (r'.cursor tags)) (g a tags r')) :
    Records tags r ((p >>= f) c) ((q >>= g) tags r) := by
  generalize hx : p c = x at h hf
  generalize hy : q tags r = y at h
  cases h with
  | found hr herrors =>
    rw [Parser.bind_eq_of_eq_ok hx, Recorder.bind_of_ok hy]
    exact (hf _ _ rfl hr).of_goesOn hr herrors
  | wrong hr herrors he =>
    rw [Parser.bind_eq_error_iff.2 (.inl hx), Recorder.bind_of_error hy]
    exact .wrong hr herrors he
  | out hr herrors hlook =>
    rw [Parser.bind_eq_error_iff.2 (.inl hx), Recorder.bind_of_error hy]
    exact .out hr herrors hlook

namespace Follows

theorem bind {f : α → Parser β} {g : α → Recorder β} (h : Follows d p q) (hf : ∀ a, Follows d (f a) (g a)) :
    Follows d (p >>= f) (q >>= g) := fun tags r hr =>
  (h tags r hr).bind fun a r' _ hr' => hf a tags r' (hr'.depth.trans hr)

theorem pure (a : α) : Follows d (Pure.pure a) (Pure.pure a) := fun _ r _ => .found (.refl r) rfl

theorem peek : Follows d Parser.peek Recorder.peek := by
  intro tags r _
  have hgoes : r.GoesOn { r with looked := r.position :: r.looked } :=
    ⟨Nat.le_refl _, rfl, fun i hi => (List.mem_cons.1 hi).symm.imp_right Nat.le_of_eq⟩
  simp only [Parser.peek, Recorder.peek, Record.cursor]
  cases htag : tags[r.position]? with
  | none =>
    have hlength := List.getElem?_eq_none_iff.1 htag
    rw [List.drop_of_length_le hlength]
    exact .out hgoes rfl ⟨_, List.mem_cons_self, hlength⟩
  | some t =>
    obtain ⟨hlength, rfl⟩ := List.getElem?_eq_some_iff.1 htag
    rw [List.drop_eq_getElem_cons hlength]
    have hcursor : (⟨r.position, tags[r.position] :: tags.drop (r.position + 1)⟩ : Cursor) =
        Record.cursor tags { r with looked := r.position :: r.looked } := by
      rw [Record.cursor, ← List.drop_eq_getElem_cons hlength]
    rw [hcursor]
    exact .found hgoes rfl

theorem advance : Follows d Parser.advance Recorder.advance := by
  intro tags r _
  rw [Parser.advance, Record.cursor, List.tail_drop]
  have hgoes : r.GoesOn { r with position := r.position + 1 } := ⟨Nat.le_succ _, rfl, fun i hi => .inl hi⟩
  exact .found hgoes rfl

theorem complain (k : Complaint) : Follows d (Parser.complain k : Parser α) (Recorder.complain k) := fun _ _ _ =>
  .wrong ⟨Nat.le_refl _, rfl, fun _ hi => .inl hi⟩ rfl rfl

theorem eat (t : Tag) : Follows d (Parser.eat t) (Recorder.eat t) := by
  refine peek.bind fun u => ?_
  split
  · exact advance.bind fun i => pure _
  · exact pure _

theorem expect (t : Tag) : Follows d (Parser.expect t) (Recorder.expect t) := by
  refine peek.bind fun u => ?_
  split
  · exact advance
  · exact complain _

/-- One level deeper there is still a level. -/
theorem deeper (h : Follows (d + 1) p q) (hd : d < Grammar.maxNesting) : Follows d p (Recorder.deeper q) := by
  intro tags r hr
  have hlevel : ¬Grammar.maxNesting < r.depth + 1 := by omega
  have hin := h tags { r with depth := r.depth + 1 } (congrArg (· + 1) hr)
  simp only [Recorder.deeper, if_neg hlevel]
  replace hin : Records tags { r with depth := r.depth + 1 } (p (r.cursor tags)) _ := hin
  generalize p (r.cursor tags) = x at hin ⊢
  generalize q tags { r with depth := r.depth + 1 } = y at hin ⊢
  -- The level that was entered is the one that is left.
  have hleft : ∀ {r' : Record}, Record.GoesOn { r with depth := r.depth + 1 } r' →
      r.GoesOn { r' with depth := r'.depth - 1 } := fun h =>
    ⟨h.position, by rw [h.depth]; rfl, h.looked⟩
  cases hin with
  | found hr' herrors => exact .found (hleft hr') herrors
  | wrong hr' herrors he => exact .wrong (hleft hr') herrors he
  | out hr' herrors hlook => exact .out (hleft hr') herrors hlook

/-- On the deepest level nothing can be done one level deeper. -/
theorem tooDeep (q : Recorder α) :
    Follows Grammar.maxNesting (Parser.complain .nestingTooDeep) (Recorder.deeper q) := by
  intro tags r hr
  have hlevel : Grammar.maxNesting < r.depth + 1 := by omega
  simp only [Recorder.deeper, if_pos hlevel]
  exact .wrong ⟨Nat.le_refl _, rfl, fun _ hi => .inl hi⟩ rfl rfl

end Follows

theorem Parser.manyUpTo_of_some {step : Parser (Option α)} {c c' : Cursor} {a : α} (h : step c = .ok (some a, c'))
    (n : Nat) : manyUpTo step (n + 1) c = (do return a :: (← manyUpTo step n) : Parser (List α)) c' := by
  rw [manyUpTo, bind_eq_of_eq_ok h]

/-- With as many repetitions as there are tags, one more makes no difference. -/
theorem Parser.manyUpTo_succ {step : Parser (Option α)} {spelled : α → List Leaf → Prop} {follow stop : Cursor → Prop}
    (hstep : Tries step spelled follow stop) (hend : ∀ i, step ⟨i, []⟩ = .error .outOfTokens) {n : Nat} {c : Cursor}
    (hn : c.rest.length ≤ n) : manyUpTo step (n + 1) c = manyUpTo step n c := by
  induction n generalizing c with
  | zero =>
    obtain ⟨i, rest⟩ := c
    obtain rfl := List.length_eq_zero_iff.1 (Nat.le_zero.1 hn)
    exact bind_eq_error_iff.2 (.inl (hend i))
  | succ n ih =>
    cases hfirst : step c with
    | error e => rw [manyUpTo, bind_eq_error_iff.2 (.inl hfirst), manyUpTo, bind_eq_error_iff.2 (.inl hfirst)]
    | ok found =>
      obtain ⟨a?, c'⟩ := found
      cases a? with
      | none => rw [manyUpTo, bind_eq_of_eq_ok hfirst, manyUpTo, bind_eq_of_eq_ok hfirst]
      | some a =>
        obtain ⟨ls, hreads, -, hls⟩ := hstep.sound hfirst
        have hlength := hreads.length_rest
        have hpos := List.length_pos_iff.2 hls
        have hmore := ih (c := c') (by omega)
        rw [manyUpTo_of_some hfirst, manyUpTo_of_some hfirst]
        simp only [bind, StateT.bind, hmore]

/-- A repetition comes to its end before the recorder runs out of repetitions. -/
theorem Follows.many {step : Parser (Option α)} {step' : Recorder (Option α)} {spelled : α → List Leaf → Prop}
    {follow stop : Cursor → Prop} (h : Follows d step step') (hstep : Parser.Tries step spelled follow stop)
    (hend : ∀ i, step ⟨i, []⟩ = .error .outOfTokens) : Follows d (Parser.many step) (Recorder.many step') := by
  have hupTo : ∀ (n : Nat) (tags : List Tag) (r : Record), r.depth = d → tags.length - r.position < n →
      Records tags r (Parser.manyUpTo step n (r.cursor tags)) (Recorder.manyUpTo step' n tags r) := by
    intro n
    induction n with
    | zero => exact fun _ _ _ hn => absurd hn (Nat.not_lt_zero _)
    | succ n ih =>
      intro tags r hr hn
      refine (h tags r hr).bind fun a? r' hfound hr' => ?_
      cases a? with
      | none => exact .found (.refl r') rfl
      | some a =>
        -- A repetition reads a tag, so fewer tags are left for the others.
        obtain ⟨ls, hreads, -, hls⟩ := hstep.sound hfound
        have hlength := hreads.length_rest
        have hpos := List.length_pos_iff.2 hls
        simp only [Record.cursor, List.length_drop] at hlength
        have hmore := ih tags r' (hr'.depth.trans hr) (by omega)
        exact hmore.bind fun as r'' _ _ => .found (.refl r'') rfl
  intro tags r hr
  have hmany : Parser.many step (r.cursor tags) =
      Parser.manyUpTo step (tags.length - r.position + 1) (r.cursor tags) := by
    have hlength : (r.cursor tags).rest.length = tags.length - r.position := by simp [Record.cursor]
    rw [Parser.many, ← hlength, Parser.manyUpTo_succ hstep hend (Nat.le_refl _)]
  rw [hmany]
  exact hupTo _ tags r hr (Nat.lt_succ_self _)

end Combinators

namespace Grammar

variable {levels d : Nat}

section Expressions

variable {nested : Parser (ParsedExpr .sum)} {nested' : Recorder (ParsedExpr .sum)}

theorem follows_arguments (h : Follows d nested nested') (mark : TokenId) (f : Builtin) :
    Follows d (arguments nested mark f) (Recorder.arguments nested' mark f) := by
  cases f with
  | abs | rnd =>
    exact (Follows.expect _).bind fun _ => h.bind fun _ => (Follows.expect _).bind fun _ => .pure _
  | mod =>
    exact (Follows.expect _).bind fun _ => h.bind fun _ => (Follows.expect _).bind fun _ =>
      h.bind fun _ => (Follows.expect _).bind fun _ => .pure _

theorem follows_operand (h : Follows d nested nested') : Follows d (operand nested) (Recorder.operand nested') := by
  refine Follows.peek.bind fun t => ?_
  cases t with
  | var | number => exact Follows.advance.bind fun _ => .pure _
  | lparen =>
    exact Follows.advance.bind fun _ => h.bind fun _ => (Follows.expect _).bind fun _ => .pure _
  | builtin f => exact Follows.advance.bind fun mark => follows_arguments h mark f
  | _ => exact .complain _

theorem follows_nextFactor (h : Follows d nested nested') :
    Follows d (nextFactor nested) (Recorder.nextFactor nested') := by
  refine Follows.peek.bind fun t => ?_
  cases t with
  | scale o => exact Follows.advance.bind fun _ => (follows_operand h).bind fun _ => .pure _
  | _ => exact .pure _

theorem follows_product (h : Follows d nested nested')
    (hnested : Parser.Parses nested (Expr.SpelledWithin levels) Cursor.EndsSum) :
    Follows d (product nested) (Recorder.product nested') :=
  (follows_operand h).bind fun _ =>
    ((follows_nextFactor h).many (tries_nextFactor hnested) fun _ => rfl).bind fun _ => .pure _

theorem follows_leadingSign : Follows d leadingSign Recorder.leadingSign := by
  refine Follows.peek.bind fun t => ?_
  cases t with
  | sign s => exact Follows.advance.bind fun _ => .pure _
  | _ => exact .pure _

theorem follows_nextTerm (h : Follows d nested nested')
    (hnested : Parser.Parses nested (Expr.SpelledWithin levels) Cursor.EndsSum) :
    Follows d (nextTerm nested) (Recorder.nextTerm nested') := by
  refine Follows.peek.bind fun t => ?_
  cases t with
  | sign s => exact Follows.advance.bind fun _ => (follows_product h hnested).bind fun _ => .pure _
  | _ => exact .pure _

theorem follows_sum (h : Follows d nested nested')
    (hnested : Parser.Parses nested (Expr.SpelledWithin levels) Cursor.EndsSum) :
    Follows d (sum nested) (Recorder.sum nested') :=
  follows_leadingSign.bind fun _ => (follows_product h hnested).bind fun _ =>
    ((follows_nextTerm h hnested).many (tries_nextTerm hnested) fun _ => rfl).bind fun _ => .pure _

/-- The levels that are left are those that the depth has not used up. -/
theorem follows_expression (hd : d + levels = maxNesting) :
    Follows d (expression levels) (Recorder.expression (levels + 1)) := by
  induction levels generalizing d with
  | zero =>
    obtain rfl : d = maxNesting := hd
    exact .tooDeep _
  | succ levels ih =>
    exact (follows_sum (ih (by omega)) (parses_expression levels)).deeper (by omega)

end Expressions

section Statements

variable {value : Parser (ParsedExpr .sum)} {value' : Recorder (ParsedExpr .sum)}

theorem follows_item (h : Follows d value value') : Follows d (item value) (Recorder.item value') := by
  refine (Follows.eat _).bind fun s? => ?_
  cases s? with
  | some s => exact .pure _
  | none => exact h.bind fun _ => .pure _

theorem follows_afterComma {α : Type} {p : Parser α} {q : Recorder α} (h : Follows d p q) :
    Follows d (afterComma p) (Recorder.afterComma q) := by
  refine (Follows.eat _).bind fun i? => ?_
  cases i? with
  | some i => exact h.bind fun _ => .pure _
  | none => exact .pure _

theorem follows_printStatement (h : Follows d value value')
    (hvalue : Parser.Parses value (Expr.SpelledWithin levels) Cursor.EndsSum) :
    Follows d (printStatement value) (Recorder.printStatement value') :=
  Follows.advance.bind fun _ => (follows_item h).bind fun _ =>
    ((follows_afterComma (follows_item h)).many (tries_afterComma (parses_item hvalue)) fun _ => rfl).bind
      fun _ => .pure _

theorem follows_inputStatement : Follows d inputStatement Recorder.inputStatement :=
  Follows.advance.bind fun _ => (Follows.expect _).bind fun _ =>
    ((follows_afterComma (Follows.expect _)).many (tries_afterComma parses_variable) fun _ => rfl).bind
      fun _ => .pure _

theorem follows_letStatement (h : Follows d value value') :
    Follows d (letStatement value) (Recorder.letStatement value') :=
  Follows.advance.bind fun _ => (Follows.expect _).bind fun _ => (Follows.expect _).bind fun _ =>
    h.bind fun _ => .pure _

theorem follows_relation : Follows d relation Recorder.relation := by
  refine Follows.peek.bind fun t => ?_
  cases t with
  | comparison r => exact Follows.advance.bind fun _ => .pure _
  | _ => exact .complain _

theorem follows_ifStatement {body : Parser (Option ParsedStmt)} {body' : Recorder (Option ParsedStmt)}
    (h : Follows d value value') (hbody : Follows d body body') :
    Follows d (ifStatement value body) (Recorder.ifStatement value' body') := by
  refine Follows.advance.bind fun _ => h.bind fun _ => follows_relation.bind fun _ => h.bind fun _ => ?_
  refine (Follows.expect _).bind fun _ => hbody.bind fun s? => ?_
  cases s? with
  | some s => exact .pure _
  | none => exact .complain _

theorem follows_statementWith {conditional : Parser ParsedStmt} {conditional' : Recorder ParsedStmt}
    (h : Follows d value value') (hvalue : Parser.Parses value (Expr.SpelledWithin levels) Cursor.EndsSum)
    (hconditional : Follows d conditional conditional') :
    Follows d (statementWith value conditional) (Recorder.statementWith value' conditional') := by
  have some_of : ∀ {p : Parser ParsedStmt} {q : Recorder ParsedStmt}, Follows d p q →
      Follows d (do return some (← p) : Parser (Option ParsedStmt)) (do return some (← q)) :=
    fun hp => hp.bind fun _ => .pure _
  refine Follows.peek.bind fun t => ?_
  cases t with
  | eol => exact .pure _
  | keyword k =>
    cases k with
    | print => exact some_of (follows_printStatement h hvalue)
    | input => exact some_of follows_inputStatement
    | «let» => exact some_of (follows_letStatement h)
    | «if» => exact some_of hconditional
    | goto | gosub => exact Follows.advance.bind fun _ => h.bind fun _ => .pure _
    | «return» | clear | list | run | «end» => exact Follows.advance.bind fun _ => .pure _
    | «then» => exact .complain _
  | _ => exact .complain _

theorem follows_statement (hd : d + levels = maxNesting) :
    Follows d (statement levels) (Recorder.statement (levels + 1)) := by
  induction levels generalizing d with
  | zero =>
    obtain rfl : d = maxNesting := hd
    exact follows_statementWith (follows_expression (Nat.add_zero _)) (parses_expression 0) (.tooDeep _)
  | succ levels ih =>
    have hdeeper : d + 1 + levels = maxNesting := by omega
    exact follows_statementWith (follows_expression hd) (parses_expression _)
      ((follows_ifStatement (follows_expression hdeeper) (ih hdeeper)).deeper (by omega))

end Statements

theorem follows_lineEnd : Follows d lineEnd Recorder.lineEnd := by
  refine (Follows.eat _).bind fun i? => ?_
  cases i? with
  | some i => exact .pure _
  | none =>
    refine Follows.peek.bind fun t => ?_
    split
    · exact .pure _
    · exact .complain _

theorem follows_line : Follows 0 line Recorder.line :=
  (Follows.eat _).bind fun _ => (follows_statement (Nat.zero_add _)).bind fun _ =>
    follows_lineEnd.bind fun _ => .pure _

theorem follows_nextLine : Follows 0 nextLine Recorder.nextLine := by
  refine Follows.peek.bind fun t => ?_
  split
  · exact .pure _
  · exact follows_line.bind fun _ => .pure _

theorem follows_program : Follows 0 program Recorder.program :=
  (follows_nextLine.many tries_nextLineWithin fun _ => rfl).bind fun _ => .pure _

/-! ### The end of the text -/

/-- The first end of the text stands at an offset. -/
def EndsAt (tags : List Tag) (f : Nat) : Prop := tags[f]? = some .eof ∧ ∀ i < f, tags[i]? ≠ some .eof

/-- The errors that a result raises: the one that it fails with, if it does. -/
def raised {α : Type} : Except ParseFailure α → List SyntaxError
  | .ok _ => []
  | .error (.wrong e) => [e]
  | .error .outOfTokens => []

section End

variable {tags tags' front rest : List Tag} {f : Nat} {lines : List ParsedLine} {e : SyntaxError} {c : Cursor}

theorem EndsAt.mem (h : EndsAt tags f) : .eof ∈ tags := List.mem_of_getElem? h.1

/-- If the text ends anywhere, then there is a first end. -/
theorem exists_endsAt (h : .eof ∈ tags) : ∃ f, EndsAt tags f := by
  obtain ⟨front, rest, rfl, hfront⟩ := List.eq_append_cons_of_mem h
  refine ⟨front.length, by simp, fun i hi heof => ?_⟩
  rw [List.getElem?_append_left hi] at heof
  exact hfront (List.mem_of_getElem? heof)

/-- Tags that hold no end stand in front of the first one. -/
theorem EndsAt.length_le (h : EndsAt (front ++ rest) f) (hfront : .eof ∉ front) : front.length ≤ f := by
  refine Nat.not_lt.1 fun hlt => ?_
  have htag := h.1
  rw [List.getElem?_append_left hlt] at htag
  exact hfront (List.mem_of_getElem? htag)

/-- A parser that succeeds has come to the first end at most. -/
theorem EndsAt.position_le (h : EndsAt tags f) (hparse : program ⟨0, tags⟩ = .ok (lines, c)) : c.position ≤ f := by
  obtain ⟨-, -, ls, hreads, hls⟩ := programWithin_eq_ok_iff.1 hparse
  obtain ⟨front, htags, rfl, hposition⟩ := Cursor.reads_iff.1 hreads
  obtain rfl : tags = front ++ c.rest := htags
  rw [hposition, Nat.zero_add]
  exact h.length_le fun heof => (hls.proper_of_mem heof).1 rfl

/-- What a parser complains about is the first end or stands in front of it. -/
theorem EndsAt.token_le (h : EndsAt tags f) (hparse : parse tags = .error (.wrong e)) : e.token ≤ f := by
  obtain ⟨front, rest, rfl, htoken, hbroken⟩ := exists_front_of_parse hparse
  rw [htoken]
  refine h.length_le ?_
  rcases hbroken with hopens | ⟨-, -, hopens⟩ <;> exact eof_not_mem_of_opens hopens

/-- The tags up to the first end decide about the result. -/
theorem EndsAt.parse_eq (h : EndsAt tags f) (htake : tags'.take (f + 1) = tags.take (f + 1)) :
    parse tags' = parse tags := by
  have hforetells : Parser.Foretells (fun _ => True) true program program :=
    foretells_programWithin (Nat.le_refl 63) fun _ => rfl
  have hlength : f + 1 ≤ tags.length := (List.getElem?_eq_some_iff.1 h.1).1
  have hagrees : Cursor.AgreesBefore (f + 1) ⟨0, tags⟩ ⟨0, tags'⟩ :=
    agreesBefore_of_take (htake ▸ List.take_prefix _ _) hlength
  cases hparse : program ⟨0, tags⟩ with
  | ok r =>
    obtain ⟨lines, c⟩ := r
    obtain ⟨d, hd, -⟩ := hforetells.found hagrees hparse (Nat.lt_succ_of_le (h.position_le hparse))
    rw [parse, parse, hparse, hd]
    rfl
  | error e =>
    have herror := parse_eq_error_iff.2 hparse
    cases e with
    | outOfTokens => exact absurd herror (parse_ne_outOfTokens h.mem)
    | wrong e =>
      have htoken := h.token_le herror
      -- A complaint about nesting is made without a look at its tag, and any other one with a look at it.
      have hhorizon : e.horizon ≤ f + 1 := by
        rw [SyntaxError.horizon]
        split
        · exact Nat.le_succ_of_le htoken
        · exact Nat.succ_le_succ htoken
      rw [herror]
      exact parse_eq_error_iff.2 (hforetells.failed hagrees hparse trivial hhorizon)

/-- A recorder on a list of tags finds what the parser finds, on no level of nesting, with the error that it fails with
and no other one. -/
theorem records_run (tags : List Tag) : Records tags ⟨0, 0, [], []⟩ (program ⟨0, tags⟩) (Recorder.run tags) :=
  follows_program tags ⟨0, 0, [], []⟩ rfl

theorem run_eq (tags : List Tag) : (Recorder.run tags).1 = parse tags ∧ (Recorder.run tags).2.depth = 0 ∧
    (Recorder.run tags).2.errors = raised (parse tags) := by
  have h := records_run tags
  rw [parse]
  generalize program ⟨0, tags⟩ = x at h
  generalize Recorder.run tags = y at h
  cases h with
  | found hr herrors => exact ⟨rfl, hr.depth, herrors⟩
  | wrong hr herrors _ => exact ⟨rfl, hr.depth, herrors⟩
  | out hr herrors _ => exact ⟨rfl, hr.depth, herrors⟩

/-- No tag behind the first end is looked at. -/
theorem EndsAt.looked_le (h : EndsAt tags f) : ∀ i ∈ (Recorder.run tags).2.looked, i ≤ f := by
  have hrecords := records_run tags
  generalize hparse : program ⟨0, tags⟩ = x at hrecords
  generalize Recorder.run tags = y at hrecords
  have hlooked : ∀ {r' : Record}, Record.GoesOn ⟨0, 0, [], []⟩ r' → r'.position ≤ f → ∀ i ∈ r'.looked, i ≤ f :=
    fun hr hf i hi => Nat.le_trans ((hr.looked i hi).resolve_left List.not_mem_nil) hf
  cases hrecords with
  | found hr _ => exact hlooked hr (h.position_le hparse)
  | wrong hr _ he => exact hlooked hr (he ▸ h.token_le (parse_eq_error_iff.2 hparse))
  | out => exact absurd (parse_eq_error_iff.2 hparse) (parse_ne_outOfTokens h.mem)

/-- A parser that runs out of tags has looked behind the last one. -/
theorem exists_looked (h : parse tags = .error .outOfTokens) :
    ∃ i ∈ (Recorder.run tags).2.looked, tags.length ≤ i := by
  have hrecords := records_run tags
  rw [parse_eq_error_iff.1 h] at hrecords
  generalize Recorder.run tags = y at hrecords
  cases hrecords with
  | out _ _ hlook => exact hlook

/-- The parser of programs never reads past the first end of the text. With an end it returns or raises an error about
the end or a tag in front of it, it looks at no tag behind the end, and those tags make no difference. Without an end
it does not return: it raises an error or looks behind the last tag. In any case all levels of nesting are left, and
the error raised, if there is one, is the only one kept. So a text that can be cut into tokens is a program or has a
syntax error. -/
theorem run_within_end :
    (∀ tags, (Recorder.run tags).1 = parse tags ∧ (Recorder.run tags).2.depth = 0 ∧
      (Recorder.run tags).2.errors = raised (parse tags)) ∧
    (∀ tags, .eof ∈ tags → ∃ f, EndsAt tags f) ∧
    (∀ tags f, EndsAt tags f →
      ((∃ lines, parse tags = .ok lines) ∨ ∃ e, parse tags = .error (.wrong e) ∧ e.token ≤ f) ∧
      (∀ i ∈ (Recorder.run tags).2.looked, i ≤ f) ∧
      ∀ tags', tags'.take (f + 1) = tags.take (f + 1) → parse tags' = parse tags) ∧
    (∀ tags, .eof ∉ tags →
      (∃ e, parse tags = .error (.wrong e)) ∨
        parse tags = .error .outOfTokens ∧ ∃ i ∈ (Recorder.run tags).2.looked, tags.length ≤ i) ∧
    ∀ source tokens, scan source = .ok tokens →
      (∃ p, Program.parse source = .ok p) ∨ ∃ e, Program.parse source = .error (.parse tokens (.wrong e)) := by
  refine ⟨run_eq, fun _ => exists_endsAt, fun tags f hf => ⟨?_, hf.looked_le, fun tags' => hf.parse_eq⟩,
    fun tags heof => ?_, ?_⟩
  · cases hparse : parse tags with
    | ok lines => exact .inl ⟨lines, rfl⟩
    | error e =>
      cases e with
      | outOfTokens => exact absurd hparse (parse_ne_outOfTokens hf.mem)
      | wrong e => exact .inr ⟨e, rfl, hf.token_le hparse⟩
  · cases hparse : parse tags with
    | ok lines =>
      obtain ⟨front, rest, rfl, -⟩ := parse_eq_ok_iff.1 hparse
      exact absurd (by simp) heof
    | error e =>
      cases e with
      | outOfTokens => exact .inr ⟨rfl, exists_looked hparse⟩
      | wrong e => exact .inl ⟨e, rfl⟩
  · intro source tokens hscan
    obtain ⟨front, eof, rfl, heof, -⟩ := (Scanner.scans_of_tokens hscan).eof
    have hmem : .eof ∈ (front ++ [eof]).map Token.tag := by simp [heof]
    rw [Program.parse_of_scan hscan, Program.ofTokens]
    cases hparse : parse ((front ++ [eof]).map Token.tag) with
    | ok lines => exact .inl ⟨_, rfl⟩
    | error e =>
      cases e with
      | outOfTokens => exact absurd hparse (parse_ne_outOfTokens hmem)
      | wrong e => exact .inr ⟨e, rfl⟩

/-- Behind the end there are tags that make no difference. Without the end the same tags are not enough. -/
theorem run_within_end_parenthesis :
    (Recorder.run [.keyword .print, .lparen, .var, .eof, .comma]).1 = .error (.wrong ⟨.expectToken .rparen, 3⟩) ∧
      (Recorder.run [.keyword .print, .lparen, .var, .eof, .comma]).2.depth = 0 ∧
      (Recorder.run [.keyword .print, .lparen, .var, .eof, .comma]).2.errors = [⟨.expectToken .rparen, 3⟩] ∧
      (∀ i ∈ (Recorder.run [.keyword .print, .lparen, .var, .eof, .comma]).2.looked, i ≤ 3) ∧
      parse [.keyword .print, .lparen, .var, .eof] = .error (.wrong ⟨.expectToken .rparen, 3⟩) ∧
      ∃ i ∈ (Recorder.run [.keyword .print, .lparen, .var]).2.looked, 3 ≤ i := by
  have herror : parse [.keyword .print, .lparen, .var, .eof, .comma] = .error (.wrong ⟨.expectToken .rparen, 3⟩) := rfl
  have hends : EndsAt [.keyword .print, .lparen, .var, .eof, .comma] 3 := by
    refine ⟨rfl, fun i hi => ?_⟩
    have hcases : i = 0 ∨ i = 1 ∨ i = 2 := by omega
    rcases hcases with rfl | rfl | rfl <;> simp
  obtain ⟨hrecord, -, hend, hopen, -⟩ := run_within_end
  obtain ⟨hresult, hdepth, herrors⟩ := hrecord [.keyword .print, .lparen, .var, .eof, .comma]
  obtain ⟨-, hlooked, hsame⟩ := hend _ _ hends
  rcases hopen [.keyword .print, .lparen, .var] (by simp) with ⟨e, hwrong⟩ | ⟨-, hlook⟩
  · cases hwrong
  · refine ⟨hresult.trans herror, hdepth, herrors.trans (by rw [herror]; rfl), hlooked, ?_, hlook⟩
    exact (hsame [.keyword .print, .lparen, .var, .eof] rfl).trans herror

end End

end Grammar

end LineBasic

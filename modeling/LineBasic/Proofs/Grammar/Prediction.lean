import LineBasic.Proofs.Grammar.Lookahead

/-!
# The parsers of the grammar foretell one another

The parser of programs foretells itself, complaints about nesting included. It also foretells the parser with more
levels of nesting, except for these complaints.

## Main results

* `Grammar.foretells_expression`, `Grammar.foretells_statement`, `Grammar.foretells_programWithin`.
-/

namespace LineBasic

namespace Grammar

open LineBasic.Parser

variable {K : Complaint → Prop} {levels levels' : Nat}

section Expressions

variable {nested nested' : Parser (ParsedExpr .sum)}

theorem foretells_arguments (h : Foretells K false nested nested') (mark : TokenId) (f : Builtin) :
    Foretells K true (arguments nested mark f) (arguments nested' mark f) := by
  -- A sum, with its closing parenthesis.
  have closed : ∀ g : ParsedExpr .sum → ParsedExpr .operand,
      Foretells K false (do let e ← nested; let _ ← expect .rparen; return g e)
        (do let e ← nested'; let _ ← expect .rparen; return g e) := fun g =>
    h.bind fun e _ => .readsOne_bind (readsOne_expect _) fun _ _ => .pure _
  cases f with
  | abs => exact .readsOne_bind (readsOne_expect _) fun _ _ => closed (.abs mark)
  | rnd => exact .readsOne_bind (readsOne_expect _) fun _ _ => closed (.rnd mark)
  | mod =>
    exact .readsOne_bind (readsOne_expect _) fun _ _ => h.bind fun e _ =>
      .readsOne_bind (readsOne_expect _) fun _ _ => closed (.mod mark e)

theorem foretells_operand (h : Foretells K false nested nested') :
    Foretells K true (operand nested) (operand nested') := by
  refine .bind .peek fun t _ => ?_
  cases t with
  | var => exact .readsOne_bind readsOne_advance fun _ _ => .pure _
  | number => exact .readsOne_bind readsOne_advance fun _ _ => .pure _
  | lparen =>
    exact .readsOne_bind readsOne_advance fun _ _ => h.bind fun _ _ =>
      .readsOne_bind (readsOne_expect _) fun _ _ => .pure _
  | builtin f => exact .readsOne_bind readsOne_advance fun mark _ => (foretells_arguments h mark f).early
  | _ => exact .complain (by simp)

theorem foretells_nextFactor (h : Foretells K false nested nested') :
    Foretells K true (nextFactor nested) (nextFactor nested') := by
  refine .bind .peek fun t _ => ?_
  cases t with
  | scale o =>
    exact .readsOne_bind readsOne_advance fun _ _ => (foretells_operand h).early.bind fun _ _ => .pure _
  | _ => exact .pure _

theorem foretells_product (h : Foretells K false nested nested')
    (hnested' : Parses nested' (Expr.SpelledWithin levels') Cursor.EndsSum) :
    Foretells K true (product nested) (product nested') :=
  (foretells_operand h).bind fun _ _ =>
    ((foretells_nextFactor h).many (tries_nextFactor hnested') fun _ => rfl).bind fun _ _ => .pure _

theorem foretells_leadingSign : Foretells K true leadingSign leadingSign := by
  refine .bind .peek fun t _ => ?_
  cases t with
  | sign s => exact .readsOne_bind readsOne_advance fun _ _ => .pure _
  | _ => exact .pure _

theorem foretells_nextTerm (h : Foretells K false nested nested')
    (hnested' : Parses nested' (Expr.SpelledWithin levels') Cursor.EndsSum) :
    Foretells K true (nextTerm nested) (nextTerm nested') := by
  refine .bind .peek fun t _ => ?_
  cases t with
  | sign s =>
    exact .readsOne_bind readsOne_advance fun _ _ => (foretells_product h hnested').early.bind fun _ _ => .pure _
  | _ => exact .pure _

theorem foretells_sum (h : Foretells K false nested nested')
    (hnested' : Parses nested' (Expr.SpelledWithin levels') Cursor.EndsSum) :
    Foretells K true (sum nested) (sum nested') :=
  foretells_leadingSign.bind fun _ _ => (foretells_product h hnested').bind fun _ _ =>
    ((foretells_nextTerm h hnested').many (tries_nextTerm hnested') fun _ => rfl).bind fun _ _ => .pure _

/-- Only an expression for which no level is left complains at once. -/
theorem foretells_expression (hlevels : levels ≤ levels') (hK : K .nestingTooDeep → levels = levels') :
    Foretells K false (expression levels) (expression levels') := by
  induction levels generalizing levels' with
  | zero =>
    refine .nestingTooDeep fun h => ?_
    obtain rfl := hK h
    rfl
  | succ levels ih =>
    obtain ⟨levels', rfl⟩ := Nat.exists_eq_succ_of_ne_zero (Nat.ne_zero_of_lt hlevels)
    exact (foretells_sum (ih (Nat.le_of_succ_le_succ hlevels) fun h => Nat.succ.inj (hK h))
      (parses_expression levels')).early

theorem foretells_expression_succ (hlevels : levels ≤ levels') (hK : K .nestingTooDeep → levels = levels') :
    Foretells K true (expression (levels + 1)) (expression (levels' + 1)) :=
  foretells_sum (foretells_expression hlevels hK) (parses_expression levels')

end Expressions

section Statements

variable {value value' : Parser (ParsedExpr .sum)}

theorem foretells_item (h : Foretells K true value value') : Foretells K true (item value) (item value') := by
  refine .bind (.eat _) fun s? _ => ?_
  cases s? with
  | some s => exact .pure _
  | none => exact h.bind fun _ _ => .pure _

theorem foretells_afterComma {α : Type} {p p' : Parser α} (h : Foretells K true p p') :
    Foretells K true (afterComma p) (afterComma p') := by
  refine .bind (.eat _) fun i? _ => ?_
  cases i? with
  | some i => exact h.bind fun _ _ => .pure _
  | none => exact .pure _

theorem foretells_printStatement (h : Foretells K true value value')
    (hvalue' : Parses value' (Expr.SpelledWithin levels') Cursor.EndsSum) :
    Foretells K true (printStatement value) (printStatement value') :=
  .readsOne_bind readsOne_advance fun _ _ => (foretells_item h).early.bind fun _ _ =>
    ((foretells_afterComma (foretells_item h)).many (tries_afterComma (parses_item hvalue')) fun _ => rfl).bind
      fun _ _ => .pure _

theorem foretells_inputStatement : Foretells K true inputStatement inputStatement :=
  .readsOne_bind readsOne_advance fun _ _ => .readsOne_bind (readsOne_expect _) fun _ _ =>
    ((foretells_afterComma (.readsOne (readsOne_expect _))).many (tries_afterComma parses_variable)
      fun _ => rfl).early.bind fun _ _ => .pure _

theorem foretells_letStatement (h : Foretells K false value value') :
    Foretells K true (letStatement value) (letStatement value') :=
  .readsOne_bind readsOne_advance fun _ _ => .readsOne_bind (readsOne_expect _) fun _ _ =>
    .readsOne_bind (readsOne_expect _) fun _ _ => h.bind fun _ _ => .pure _

/-- What is made of the next tag where a comparison is expected. -/
def relationAt : Option Tag → TokenId → Except ParseFailure (Comparison × TokenId)
  | none, _ => .error .outOfTokens
  | some (.comparison r), i => .ok (r, i)
  | some _, i => .error (.wrong ⟨.expectComparison, i⟩)

theorem readsOne_relation : ReadsOne relation := by
  refine ⟨relationAt, ?_, ?_⟩
  · rintro ⟨i, _ | ⟨t, ts⟩⟩
    · rfl
    · cases t <;> rfl
  · rintro (_ | t) i e h
    · cases h
    · cases t <;> cases h <;> exact ⟨rfl, by simp⟩

/-- IF statements. What stands behind THEN is only looked at if there are levels left for the condition. -/
theorem foretells_ifStatement {body body' : Parser (Option ParsedStmt)} (h : Foretells K false value value')
    (hbody : (∃ c r, value c = .ok r) → Foretells K false body body') :
    Foretells K true (ifStatement value body) (ifStatement value' body') := by
  refine .readsOne_bind readsOne_advance fun _ _ => h.bind fun _ hvalue =>
    .readsOne_bind readsOne_relation fun r _ => h.bind fun _ _ =>
      .readsOne_bind (readsOne_expect _) fun _ _ => ?_
  obtain ⟨c, c', hvalue⟩ := hvalue
  refine (hbody ⟨c, _, hvalue⟩).bind fun s? _ => ?_
  cases s? with
  | some s => exact .pure _
  | none => exact .complain (by simp)

theorem foretells_statementWith {conditional conditional' : Parser ParsedStmt} (h : Foretells K true value value')
    (hvalue' : Parses value' (Expr.SpelledWithin levels') Cursor.EndsSum)
    (hconditional : Foretells K true conditional conditional') :
    Foretells K true (statementWith value conditional) (statementWith value' conditional') := by
  refine .bind .peek fun t _ => ?_
  cases t with
  | eol => exact .pure _
  | keyword k =>
    cases k with
    | print => exact (foretells_printStatement h hvalue').bind fun _ _ => .pure _
    | input => exact foretells_inputStatement.bind fun _ _ => .pure _
    | «let» => exact (foretells_letStatement h.early).bind fun _ _ => .pure _
    | «if» => exact hconditional.bind fun _ _ => .pure _
    | goto | gosub => exact .readsOne_bind readsOne_advance fun _ _ => h.early.bind fun _ _ => .pure _
    | «return» | clear | list | run | «end» => exact .readsOne_bind readsOne_advance fun _ _ => .pure _
    | «then» => exact .complain (by simp)
  | _ => exact .complain (by simp)

theorem foretells_statement (hlevels : levels ≤ levels') (hK : K .nestingTooDeep → levels = levels') :
    Foretells K true (statement (levels + 1)) (statement (levels' + 1)) := by
  induction levels generalizing levels' with
  | zero =>
    refine foretells_statementWith (foretells_expression_succ hlevels hK) (parses_expression _) ?_
    -- With no level left for the condition, nothing behind it is reached.
    refine foretells_ifStatement (foretells_expression hlevels hK) ?_
    rintro ⟨c, ⟨e, c'⟩, h⟩
    exact absurd h complain_ne_ok
  | succ levels ih =>
    refine foretells_statementWith (foretells_expression_succ hlevels hK) (parses_expression _) ?_
    refine foretells_ifStatement (foretells_expression hlevels hK) fun _ => ?_
    obtain ⟨levels', rfl⟩ := Nat.exists_eq_succ_of_ne_zero (Nat.ne_zero_of_lt hlevels)
    exact (ih (Nat.le_of_succ_le_succ hlevels) fun h => Nat.succ.inj (hK h)).early

end Statements

theorem foretells_lineEnd : Foretells K true lineEnd lineEnd := by
  refine .bind (.eat _) fun i? _ => ?_
  cases i? with
  | some i => exact .pure _
  | none =>
    refine .bind .peek fun t _ => ?_
    split
    · exact .pure _
    · exact .complain (by simp)

theorem foretells_lineWithin (hlevels : levels ≤ levels') (hK : K .nestingTooDeep → levels = levels') :
    Foretells K true (lineWithin (levels + 1)) (lineWithin (levels' + 1)) :=
  .bind (.eat _) fun _ _ => (foretells_statement hlevels hK).bind fun _ _ =>
    foretells_lineEnd.bind fun _ _ => .pure _

theorem foretells_nextLineWithin (hlevels : levels ≤ levels') (hK : K .nestingTooDeep → levels = levels') :
    Foretells K true (nextLineWithin (levels + 1)) (nextLineWithin (levels' + 1)) := by
  refine .bind .peek fun t _ => ?_
  split
  · exact .pure _
  · exact (foretells_lineWithin hlevels hK).bind fun _ _ => .pure _

theorem foretells_programWithin (hlevels : levels ≤ levels') (hK : K .nestingTooDeep → levels = levels') :
    Foretells K true (programWithin (levels + 1)) (programWithin (levels' + 1)) :=
  ((foretells_nextLineWithin hlevels hK).many tries_nextLineWithin fun _ => rfl).bind fun _ _ => .pure _

end Grammar

end LineBasic

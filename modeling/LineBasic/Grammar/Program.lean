import LineBasic.Grammar.Parser

/-!
# The grammar of programs

A program is a list of lines, a line an optional number and an optional statement; a line without a
statement leaves nothing in the tree.

    line       = [number] [statement] end-of-line
    statement  = PRINT item (',' item)* | INPUT variable (',' variable)*
               | LET variable '=' expression | IF expression relation expression THEN statement
               | GOTO expression | GOSUB expression | RETURN | CLEAR | LIST | RUN | END
    item       = string | expression
    expression = ['+' | '-'] term (('+' | '-') term)*
    term       = factor (('*' | '/') factor)*
    factor     = variable | number | '(' expression ')'
               | ABS '(' expression ')' | RND '(' expression ')'
               | MOD '(' expression ',' expression ')'

The end of the text may stand for the end of the last line. Expressions and IF statements can be nested
`maxNesting` deep.

## Main definitions

* `expression`, `statement`: the parsers of expressions and statements; their argument is how many levels of
  nesting are left.
* `program`: the parser of programs, up to the end of the text.
* `parse`: the lines of a program or the reason why there are none.
-/

namespace LineBasic.Grammar

/-- How deep expressions and IF statements can be nested. -/
def maxNesting : Nat := 64

open LineBasic.Parser

section Expressions

variable (nested : Parser (ParsedExpr .sum))

/-- The arguments of a function whose name has been read, in parentheses. -/
def arguments (mark : TokenId) : Builtin → Parser (ParsedExpr .operand)
  | .abs => do
    let _ ← expect .lparen
    let e ← nested
    let _ ← expect .rparen
    return .abs mark e
  | .rnd => do
    let _ ← expect .lparen
    let e ← nested
    let _ ← expect .rparen
    return .rnd mark e
  | .mod => do
    let _ ← expect .lparen
    let e₁ ← nested
    let _ ← expect .comma
    let e₂ ← nested
    let _ ← expect .rparen
    return .mod mark e₁ e₂

/-- An operand: a variable, a number, a sum in parentheses or a call. -/
def operand : Parser (ParsedExpr .operand) := do
  match ← peek with
  | .var => return .var (← advance)
  | .number => return .number (← advance)
  | .lparen =>
    let _ ← advance
    let e ← nested
    let _ ← expect .rparen
    return .group e
  | .builtin f => arguments nested (← advance) f
  | _ => complain .expectExpression

/-- A further operand of a product, with the operator before it. -/
def nextFactor : Parser (Option (Scale × ParsedExpr .operand)) := do
  match ← peek with
  | .scale o =>
    let _ ← advance
    return some (o, ← operand nested)
  | _ => return none

/-- Operands with multiplications and divisions between them. -/
def product : Parser (ParsedExpr .product) := do
  let a ← operand nested
  return .ofFactors a (← many (nextFactor nested))

/-- The sign that may stand before a sum. -/
def leadingSign : Parser Sign := do
  match ← peek with
  | .sign s =>
    let _ ← advance
    return s
  | _ => return .plus

/-- A further product of a sum, with the sign before it. -/
def nextTerm : Parser (Option (Sign × ParsedExpr .product)) := do
  match ← peek with
  | .sign s =>
    let _ ← advance
    return some (s, ← product nested)
  | _ => return none

/-- Products with additions and subtractions between them. A sign in front belongs to the first product. -/
def sum : Parser (ParsedExpr .sum) := do
  let s ← leadingSign
  let p ← product nested
  return .ofTerms s p (← many (nextTerm nested))

end Expressions

/-- An expression, inside which `levels - 1` further levels can be nested. -/
def expression : (levels : Nat) → Parser (ParsedExpr .sum)
  | 0 => complain .nestingTooDeep
  | levels + 1 => sum (expression levels)

section Statements

variable (value : Parser (ParsedExpr .sum))

/-- What PRINT prints. -/
def item : Parser ParsedItem := do
  match ← eat .string with
  | some s => return .text s
  | none => return .value (← value)

/-- What stands behind a comma, if there is one. -/
def afterComma {α : Type} (p : Parser α) : Parser (Option α) := do
  match ← eat .comma with
  | some _ => return some (← p)
  | none => return none

/-- A PRINT statement. -/
def printStatement : Parser ParsedStmt := do
  let mark ← advance
  let first ← item value
  return .print mark first (← many (afterComma (item value)))

/-- An INPUT statement. -/
def inputStatement : Parser ParsedStmt := do
  let mark ← advance
  let first ← expect .var
  return .input mark first (← many (afterComma (expect .var)))

/-- A LET statement. -/
def letStatement : Parser ParsedStmt := do
  let _ ← advance
  let v ← expect .var
  let _ ← expect (.comparison .eq)
  return .assign v (← value)

/-- The relational operator of a condition. -/
def relation : Parser (Comparison × TokenId) := do
  match ← peek with
  | .comparison r => return (r, ← advance)
  | _ => complain .expectComparison

/-- An IF statement. -/
def ifStatement (body : Parser (Option ParsedStmt)) : Parser ParsedStmt := do
  let mark ← advance
  let e₁ ← value
  let (r, rmark) ← relation
  let e₂ ← value
  let _ ← expect (.keyword .then)
  match ← body with
  | some s => return .branch mark e₁ r rmark e₂ s
  | none => complain .expectStatement

/-- A statement, or nothing at the end of a line. The statements that differ with the level of nesting are
given: the expressions inside, and IF statements. -/
def statementWith (conditional : Parser ParsedStmt) : Parser (Option ParsedStmt) := do
  match ← peek with
  | .eol => return none
  | .keyword .print => return some (← printStatement value)
  | .keyword .input => return some (← inputStatement)
  | .keyword .let => return some (← letStatement value)
  | .keyword .if => return some (← conditional)
  | .keyword .goto => return some (.goto (← advance) (← value))
  | .keyword .gosub => return some (.gosub (← advance) (← value))
  | .keyword .return => return some (.action (← advance) .ret)
  | .keyword .clear => return some (.action (← advance) .clear)
  | .keyword .list => return some (.action (← advance) .list)
  | .keyword .run => return some (.action (← advance) .run)
  | .keyword .end => return some (.action (← advance) .halt)
  | _ => complain (.expectToken .eol)

end Statements

/-- A statement, inside which `levels` further levels can be nested. -/
def statement : (levels : Nat) → Parser (Option ParsedStmt)
  | 0 => statementWith (expression 0) (complain .nestingTooDeep)
  | levels + 1 =>
    statementWith (expression (levels + 1)) (ifStatement (expression levels) (statement levels))

/-- The end of a line, for which the end of the text can stand. -/
def lineEnd : Parser Unit := do
  match ← eat .eol with
  | some _ => return ()
  | none => if (← peek) = .eof then return () else complain (.expectToken .eol)

/-- A line, which holds nothing if it has no statement. -/
def line : Parser (Option ParsedLine) := do
  let number ← eat .number
  let body ← statement maxNesting
  lineEnd
  return body.map fun s => ⟨number, s⟩

/-- A line, unless the text has ended. -/
def nextLine : Parser (Option (Option ParsedLine)) := do
  if (← peek) = .eof then
    return none
  else
    return some (← line)

/-- The lines of a program that hold a statement. -/
def program : Parser (List ParsedLine) := do
  return (← many nextLine).filterMap id

/-- The lines of the program that a list of tags spells, up to the first tag that marks the end. -/
def parse (tags : List Tag) : Except ParseFailure (List ParsedLine) :=
  (program ⟨0, tags⟩).map (·.1)

end LineBasic.Grammar

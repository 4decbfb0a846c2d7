import LineBasic.Grammar.Program

/-!
# Parsers that keep a record

The parser of programs, told step by step: it stands at an offset of a list of tags that it never cuts short, counts
the levels of nesting that it is in, keeps the errors that it raises, and notes at which offsets it has looked at a
tag. `Grammar.parse` finds the same without a record.

## Main definitions

* `Record`: what is kept besides the result.
* `Recorder`: parsers that keep a record.
* `Recorder.deeper`: a level of nesting, which is left again whatever happens in it.
* `Recorder.run`: the parser of programs on a list of tags.
-/

namespace LineBasic

/-- What a parser keeps besides its result. -/
structure Record where
  /-- The number of tags read, which is the offset of the next one. -/
  position : Nat
  /-- The number of levels of nesting around this place. -/
  depth : Nat
  /-- The errors raised. -/
  errors : List SyntaxError
  /-- The offsets at which a tag was looked at, the last one first. -/
  looked : List Nat
  deriving DecidableEq, Repr

/-- A parser that keeps a record of its way through a list of tags. The record survives a failure. -/
abbrev Recorder := ReaderT (List Tag) (ExceptT ParseFailure (StateM Record))

namespace Recorder

variable {α : Type}

/-- The next tag. Behind the last tag there is none. -/
def peek : Recorder Tag := fun tags r =>
  (match tags[r.position]? with
    | some t => .ok t
    | none => .error .outOfTokens,
    { r with looked := r.position :: r.looked })

/-- Goes past the next tag without a look at it, and gives its offset. -/
def advance : Recorder TokenId := fun _ r => (.ok r.position, { r with position := r.position + 1 })

/-- Raises an error about the next tag, and keeps it. -/
def complain (k : Complaint) : Recorder α := fun _ r =>
  (.error (.wrong ⟨k, r.position⟩), { r with errors := r.errors ++ [⟨k, r.position⟩] })

/-- Goes past the next tag if it is the given one. -/
def eat (t : Tag) : Recorder (Option TokenId) := do
  if (← peek) = t then
    return some (← advance)
  else
    return none

/-- Goes past the next tag, which must be the given one. -/
def expect (t : Tag) : Recorder TokenId := do
  if (← peek) = t then
    advance
  else
    complain (.expectToken t)

/-- The results of a step that is repeated until it finds nothing, at most `n` times. -/
def manyUpTo (step : Recorder (Option α)) : Nat → Recorder (List α)
  | 0 => throw .outOfTokens
  | n + 1 => do
    match ← step with
    | none => return []
    | some a => return a :: (← manyUpTo step n)

/-- The results of a step that is repeated until it finds nothing. There is one repetition for each tag that is left,
and one that finds none. -/
def many (step : Recorder (Option α)) : Recorder (List α) := fun tags r =>
  manyUpTo step (tags.length - r.position + 1) tags r

/-- Does something one level deeper, if there is such a level. The level is left in any case. -/
def deeper (p : Recorder α) : Recorder α := fun tags r =>
  let inner : Recorder α := if Grammar.maxNesting < r.depth + 1 then complain .nestingTooDeep else p
  let (a, r') := inner tags { r with depth := r.depth + 1 }
  (a, { r' with depth := r'.depth - 1 })

section Expressions

variable (nested : Recorder (ParsedExpr .sum))

/-- The arguments of a function whose name has been read, in parentheses. -/
def arguments (mark : TokenId) : Builtin → Recorder (ParsedExpr .operand)
  | .abs => do
    let _ ← expect .lparen
    let e ← nested
    let _ ← expect .rparen
    return .abs mark e
  | .rnd => do
    let _ ← expect .lparen
    let e ← nested
    let _ ← expect .rparen
    return .rnd mark e
  | .mod => do
    let _ ← expect .lparen
    let e₁ ← nested
    let _ ← expect .comma
    let e₂ ← nested
    let _ ← expect .rparen
    return .mod mark e₁ e₂

/-- An operand: a variable, a number, a sum in parentheses or a call. -/
def operand : Recorder (ParsedExpr .operand) := do
  match ← peek with
  | .var => return .var (← advance)
  | .number => return .number (← advance)
  | .lparen =>
    let _ ← advance
    let e ← nested
    let _ ← expect .rparen
    return .group e
  | .builtin f => arguments nested (← advance) f
  | _ => complain .expectExpression

/-- A further operand of a product, with the operator before it. -/
def nextFactor : Recorder (Option (Scale × ParsedExpr .operand)) := do
  match ← peek with
  | .scale o =>
    let _ ← advance
    return some (o, ← operand nested)
  | _ => return none

/-- Operands with multiplications and divisions between them. -/
def product : Recorder (ParsedExpr .product) := do
  let a ← operand nested
  return .ofFactors a (← many (nextFactor nested))

/-- The sign that may stand before a sum. -/
def leadingSign : Recorder Sign := do
  match ← peek with
  | .sign s =>
    let _ ← advance
    return s
  | _ => return .plus

/-- A further product of a sum, with the sign before it. -/
def nextTerm : Recorder (Option (Sign × ParsedExpr .product)) := do
  match ← peek with
  | .sign s =>
    let _ ← advance
    return some (s, ← product nested)
  | _ => return none

/-- Products with additions and subtractions between them. A sign in front belongs to the first product. -/
def sum : Recorder (ParsedExpr .sum) := do
  let s ← leadingSign
  let p ← product nested
  return .ofTerms s p (← many (nextTerm nested))

end Expressions

/-- An expression. The depth in the record bounds the nesting; that it is not used up before `n` calls of this parser
stand inside one another is a theorem. -/
def expression : (n : Nat) → Recorder (ParsedExpr .sum)
  | 0 => throw .outOfTokens
  | n + 1 => deeper (sum (expression n))

section Statements

variable (value : Recorder (ParsedExpr .sum))

/-- What PRINT prints. -/
def item : Recorder ParsedItem := do
  match ← eat .string with
  | some s => return .text s
  | none => return .value (← value)

/-- What stands behind a comma, if there is one. -/
def afterComma (p : Recorder α) : Recorder (Option α) := do
  match ← eat .comma with
  | some _ => return some (← p)
  | none => return none

/-- A PRINT statement. -/
def printStatement : Recorder ParsedStmt := do
  let mark ← advance
  let first ← item value
  return .print mark first (← many (afterComma (item value)))

/-- An INPUT statement. -/
def inputStatement : Recorder ParsedStmt := do
  let mark ← advance
  let first ← expect .var
  return .input mark first (← many (afterComma (expect .var)))

/-- A LET statement. -/
def letStatement : Recorder ParsedStmt := do
  let _ ← advance
  let v ← expect .var
  let _ ← expect (.comparison .eq)
  return .assign v (← value)

/-- The relational operator of a condition. -/
def relation : Recorder (Comparison × TokenId) := do
  match ← peek with
  | .comparison r => return (r, ← advance)
  | _ => complain .expectComparison

/-- An IF statement. -/
def ifStatement (body : Recorder (Option ParsedStmt)) : Recorder ParsedStmt := do
  let mark ← advance
  let e₁ ← value
  let (r, rmark) ← relation
  let e₂ ← value
  let _ ← expect (.keyword .then)
  match ← body with
  | some s => return .branch mark e₁ r rmark e₂ s
  | none => complain .expectStatement

/-- A statement, or nothing at the end of a line. -/
def statementWith (conditional : Recorder ParsedStmt) : Recorder (Option ParsedStmt) := do
  match ← peek with
  | .eol => return none
  | .keyword .print => return some (← printStatement value)
  | .keyword .input => return some (← inputStatement)
  | .keyword .let => return some (← letStatement value)
  | .keyword .if => return some (← conditional)
  | .keyword .goto => return some (.goto (← advance) (← value))
  | .keyword .gosub => return some (.gosub (← advance) (← value))
  | .keyword .return => return some (.action (← advance) .ret)
  | .keyword .clear => return some (.action (← advance) .clear)
  | .keyword .list => return some (.action (← advance) .list)
  | .keyword .run => return some (.action (← advance) .run)
  | .keyword .end => return some (.action (← advance) .halt)
  | _ => complain (.expectToken .eol)

end Statements

/-- A statement. An IF statement is one level deeper than what it stands in. -/
def statement : (n : Nat) → Recorder (Option ParsedStmt)
  | 0 => throw .outOfTokens
  | n + 1 => statementWith (expression (n + 1)) (deeper (ifStatement (expression n) (statement n)))

/-- The end of a line, for which the end of the text can stand. -/
def lineEnd : Recorder Unit := do
  match ← eat .eol with
  | some _ => return ()
  | none => if (← peek) = .eof then return () else complain (.expectToken .eol)

/-- A line, which holds nothing if it has no statement. -/
def line : Recorder (Option ParsedLine) := do
  let number ← eat .number
  let body ← statement (Grammar.maxNesting + 1)
  lineEnd
  return body.map fun s => ⟨number, s⟩

/-- A line, unless the text has ended. -/
def nextLine : Recorder (Option (Option ParsedLine)) := do
  if (← peek) = .eof then
    return none
  else
    return some (← line)

/-- The lines of a program that hold a statement. -/
def program : Recorder (List ParsedLine) := do
  return (← many nextLine).filterMap id

/-- Parses the program that a list of tags spells, from its start on and with an empty record. -/
def run (tags : List Tag) : Except ParseFailure (List ParsedLine) × Record :=
  program tags ⟨0, 0, [], []⟩

end Recorder

end LineBasic

import LineBasic.Grammar.SyntaxError

/-!
# Parsers

A parser reads a list of tags from the front and counts how many it has read, so it knows the position of
each token. It looks at one tag at a time and never goes back.

## Main definitions

* `Cursor`: how far a parser has come.
* `Parser.peek`, `Parser.advance`, `Parser.eat`, `Parser.expect`: looking at one tag and reading it.
* `Parser.many`: repetition, for as long as a step finds something to read.
-/

namespace LineBasic

/-- The number of tags read and the tags to come. -/
structure Cursor where
  position : Nat
  rest : List Tag
  deriving DecidableEq, Repr

/-- A parser goes on from a cursor, or fails. -/
abbrev Parser := StateT Cursor (Except ParseFailure)

namespace Parser

variable {α : Type}

/-- The next tag. -/
def peek : Parser Tag := fun c =>
  match c.rest with
  | [] => .error .outOfTokens
  | t :: _ => .ok (t, c)

/-- Reads the next tag, whatever it is, and gives its position. -/
def advance : Parser TokenId := fun c =>
  .ok (c.position, ⟨c.position + 1, c.rest.tail⟩)

/-- Complains about the next tag. -/
def complain (k : Complaint) : Parser α := fun c =>
  .error (.wrong ⟨k, c.position⟩)

/-- Reads the next tag if it is the given one. -/
def eat (t : Tag) : Parser (Option TokenId) := do
  if (← peek) = t then
    return some (← advance)
  else
    return none

/-- Reads the next tag, which must be the given one. -/
def expect (t : Tag) : Parser TokenId := do
  if (← peek) = t then
    advance
  else
    complain (.expectToken t)

/-- The results of a step that is repeated until it finds nothing, at most `n` times. -/
def manyUpTo (step : Parser (Option α)) : Nat → Parser (List α)
  | 0 => throw .outOfTokens
  | n + 1 => do
    match ← step with
    | none => return []
    | some a => return a :: (← manyUpTo step n)

/-- The results of a step that is repeated until it finds nothing. A step that finds something reads at
least one tag, so there are no more repetitions than tags. -/
def many (step : Parser (Option α)) : Parser (List α) := fun c =>
  manyUpTo step c.rest.length c

end Parser

end LineBasic

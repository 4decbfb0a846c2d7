import LineBasic.Token.Scan

/-!
# Marked source lines

A message about a token shows the line that holds it and marks the token beneath.

## Main definitions

* `lineNumber`: the number of the line at an offset, counted from one.
* `lineStart`: the offset at which that line begins.
* `Token.marked`: the line and the mark, each on a line of its own.
-/

namespace LineBasic

/-- The number of the line in which an offset lies. -/
def lineNumber (source : List Char) (offset : Nat) : Nat :=
  (source.take offset).count '\n' + 1

/-- The offset of the first character of the line in which an offset lies. -/
def lineStart (source : List Char) (offset : Nat) : Nat :=
  let before := source.take offset
  before.length - (before.reverse.takeWhile (· ≠ '\n')).length

/-- The characters of the line that begins at an offset. -/
def lineFrom (source : List Char) (offset : Nat) : List Char :=
  (source.drop offset).takeWhile (· ≠ '\n')

/-- A wide token is underlined, a token of at most one character gets a caret. -/
def underline (width : Nat) : List Char :=
  if 1 < width then List.replicate width '~' else ['^']

/-- The source line that holds a token and beneath it the mark of the token. -/
def Token.marked (source : List Char) (t : Token) : List Char :=
  let first := lineStart source t.start
  lineFrom source first ++ '\n' ::
    (List.replicate (t.start - first) ' ' ++ underline (t.stop - t.start) ++ ['\n'])

end LineBasic

import LineBasic.Text.CharClass
import LineBasic.Text.Decimal

/-!
# The console

Where a program reads its input and writes its output. Writes are counted, and some of them may be bound to
fail; a write that fails puts out nothing.

## Main definitions

* `Console`: the input that is left, what was put out, and which writes fail.
* `Console.write`: one write.
* `Console.readLine`: the next line of input.
* `parseAnswer`: the number that an answer to INPUT denotes.
-/

namespace LineBasic

/-- How a write can fail. -/
inductive WriteError where
  /-- The device fails. -/
  | device
  /-- The device refuses the text. -/
  | refused
  /-- There is no memory left. -/
  | memory
  deriving DecidableEq, Repr

/-- The console of a program. -/
structure Console where
  /-- The input that has not been read. -/
  input : List Char
  /-- Whether reading behind the end of the input is an error of the device. -/
  readFails : Bool
  /-- What was put out. -/
  output : String
  /-- The complaints about input, which go to a place of their own. -/
  diagnostics : String
  /-- How many writes were tried. -/
  writes : Nat
  /-- The numbers of the writes that fail, counted from zero. -/
  failing : List Nat
  /-- How they fail. -/
  failure : WriteError
  deriving DecidableEq, Repr

namespace Console

/-- A fresh console with some input. -/
def ofInput (input : List Char) : Console :=
  ⟨input, false, "", "", 0, [], .device⟩

/-- One write. -/
def write (text : String) (c : Console) : Except WriteError Unit × Console :=
  let tried := { c with writes := c.writes + 1 }
  if c.writes ∈ c.failing then
    (.error c.failure, tried)
  else
    (.ok (), { tried with output := c.output ++ text })

/-- Puts out a complaint about input. -/
def complain (text : String) (c : Console) : Console :=
  { c with diagnostics := c.diagnostics ++ text }

/-- Appends to the input. -/
def feed (text : List Char) (c : Console) : Console :=
  { c with input := c.input ++ text }

/-- The console with nothing put out. -/
def cleared (c : Console) : Console := { c with output := "", diagnostics := "" }

end Console

/-- The first line of a text, with its line end if it has one. -/
def firstLine : List Char → List Char
  | [] => []
  | c :: cs => if c = '\n' then [c] else c :: firstLine cs

/-- What stands behind the first line of a text. -/
def afterFirstLine : List Char → List Char
  | [] => []
  | c :: cs => if c = '\n' then cs else afterFirstLine cs

/-- A text is its first line followed by the rest. -/
theorem firstLine_append_afterFirstLine (cs : List Char) : firstLine cs ++ afterFirstLine cs = cs := by
  induction cs with
  | nil => rfl
  | cons c cs ih =>
    simp only [firstLine, afterFirstLine]
    split
    · rfl
    · rw [List.cons_append, ih]

/-- Reading a line leaves less of a text that has not ended. -/
theorem length_afterFirstLine_lt (c : Char) (cs : List Char) :
    (afterFirstLine (c :: cs)).length < (c :: cs).length := by
  induction cs generalizing c with
  | nil => simp [afterFirstLine]
  | cons d ds ih =>
    rw [afterFirstLine]
    split
    · simp
    · exact Nat.lt_succ_of_lt (ih d)

/-- A line without its line end: all line feeds and carriage returns at its end are dropped. -/
def withoutLineEnd (line : List Char) : List Char :=
  dropTrailing (fun c => c = '\r' || c = '\n') line

/-- The number of characters that an answer to INPUT may have. -/
def maxAnswer : Nat := 128

/-- The number that an answer to INPUT denotes, if it denotes one that a variable can hold. -/
def parseAnswer (answer : List Char) : Option Int :=
  (Decimal.signed? answer).filter fun n => decide (InRange n)

end LineBasic

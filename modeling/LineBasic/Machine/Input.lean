import LineBasic.Machine.Error

/-!
# Reading numbers

INPUT asks until it gets a number that a variable can hold.

## Main definitions

* `Console.print`: the write of a statement.
* `Console.readNumber`: the first acceptable answer.
-/

namespace LineBasic.Console

/-- Writes on behalf of a statement. -/
def print (text : String) (c : Console) : Except Halt Unit × Console :=
  match c.write text with
  | (.ok _, c) => (.ok (), c)
  | (.error e, c) => (.error (.ofWriteError e), c)

/-- The complaint about an answer. -/
def invalidAnswer (answer : List Char) : String :=
  "Invalid integer: " ++ String.ofList answer ++ "\n"

/-- A write leaves the input alone. -/
@[simp] theorem write_input (text : String) (c : Console) : (c.write text).2.input = c.input := by
  unfold write
  dsimp only
  split <;> rfl

/-- Asks until the answer is a number that a variable can hold. An answer that is too long and the end of
the input are errors, any other answer is complained about. -/
def readNumber (c : Console) : Except Halt Int × Console :=
  match _h : c.write "? " with
  | (.error e, asked) => (.error (.ofWriteError e), asked)
  | (.ok _, asked) =>
    match _hi : asked.input with
    | [] =>
      (.error (.stopped (.ioFailed (if asked.readFails then .badRead else .endOfInput))), asked)
    | ch :: cs =>
      let answer := withoutLineEnd (firstLine (ch :: cs))
      let answered := { asked with input := afterFirstLine (ch :: cs) }
      if maxAnswer < answer.length then
        (.error (.stopped (.ioFailed .answerTooLong)), answered)
      else
        match parseAnswer answer with
        | some n => (.ok n, answered)
        | none => (answered.complain (invalidAnswer answer)).readNumber
termination_by c.input.length
decreasing_by
  have hi : c.input = ch :: cs := by
    rw [← write_input "? " c, _h]
    exact _hi
  simp only [complain, hi]
  exact length_afterFirstLine_lt ch cs

end LineBasic.Console

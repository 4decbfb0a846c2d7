import LineBasic.Machine.Console
import LineBasic.Machine.Value
import LineBasic.Token.Mark

/-!
# Errors of a running program

## Main definitions

* `Reason`: why a statement cannot be carried out.
* `RuntimeError`: a reason and the statement that failed; `message` and `report` are its texts.
* `Halt`: what ends the execution of a statement early, which may also be lack of memory or an unsound tree.
-/

namespace LineBasic

/-- Why input or output failed. -/
inductive Cause where
  | endOfInput
  | badRead
  | answerTooLong
  | write (e : WriteError)
  deriving DecidableEq, Repr

/-- The words for a cause. -/
def Cause.words : Cause → String
  | .endOfInput => "end of input"
  | .badRead => "bad read"
  | .answerTooLong => "input longer than " ++ toString maxAnswer ++ " characters"
  | .write _ => "disk full"

/-- Why a statement cannot be carried out. -/
inductive Reason where
  | notImplemented
  | mathOverflow
  | divisionByZero
  | returnWithoutGosub
  | tooManyGosubs
  /-- There is no line with the number that a jump wants. -/
  | missingLine (number : Value)
  | ioFailed (cause : Cause)
  deriving DecidableEq, Repr

namespace Reason

/-- The name of a reason. -/
def name : Reason → String
  | notImplemented => "not_implemented"
  | mathOverflow => "math_overflow"
  | divisionByZero => "division_by_zero"
  | returnWithoutGosub => "return_without_gosub"
  | tooManyGosubs => "too_many_gosubs"
  | missingLine _ => "missing_line"
  | ioFailed _ => "io_failed"

/-- A reason in one line. -/
def message : Reason → String
  | missingLine number => "missing line " ++ number.text
  | r@(ioFailed cause) => r.name ++ ": " ++ cause.words
  | r => r.name

/-- A reason as a report names it, which keeps the cause of a failed input or output to itself. -/
def headline : Reason → String
  | missingLine number => "missing line " ++ number.text
  | r => r.name

end Reason

/-- An error of a running program: the reason, and the token of the line's statement. -/
structure RuntimeError where
  reason : Reason
  token : Option TokenId
  deriving DecidableEq, Repr

namespace RuntimeError

/-- An error in one line. -/
def message (e : RuntimeError) : String := e.reason.message

/-- The report of an error: the reason, and the source line with the statement marked. -/
def report (p : Program) (e : RuntimeError) : String :=
  "error: " ++ e.reason.headline ++ "\n" ++
    match e.token.bind fun i => p.tokens[i]? with
    | some t => String.ofList (t.marked p.source)
    | none => ""

end RuntimeError

/-- What ends a run for good. -/
inductive Abort where
  | outOfMemory
  | fault (f : Fault)
  deriving DecidableEq, Repr

/-- What ends the execution of a statement early. -/
inductive Halt where
  | stopped (r : Reason)
  | aborted (a : Abort)
  deriving DecidableEq, Repr

/-- What a failed write does to the statement that made it. -/
def Halt.ofWriteError : WriteError → Halt
  | .memory => .aborted .outOfMemory
  | e => .stopped (.ioFailed (.write e))

end LineBasic

import LineBasic.Program.Basic

/-!
# Values

What a node yields when it is evaluated: a number, or nothing if it is there for its effect. A variable can
hold either, and either can be printed and compared, but only a number can be computed with.

## Main definitions

* `Value`: a number or nothing.
* `Value.text`: a value as it is printed.
* `Value.toInt`: the number that a computation needs.
-/

namespace LineBasic

/-- What a node yields. -/
inductive Value where
  | number (n : Int)
  | nothing
  deriving DecidableEq, Repr

namespace Value

/-- A value as it is printed. -/
def text : Value → String
  | number n => toString n
  | nothing => "None"

/-- The number that a computation needs. -/
def toInt : Value → Except Fault Int
  | number n => .ok n
  | nothing => .error .noValue

end Value

end LineBasic

import LineBasic.Machine.Error
import LineBasic.Machine.Generator

/-!
# Machine states

What a running program changes, and the small steps by which it does so.

## Main definitions

* `State`: variables, saved positions, the position in the program, errors, console and generator.
* `Execution`: a computation that changes a state.
-/

namespace LineBasic

/-- The values of all variables. -/
abbrev Store := Vector Value letterCount

/-- The state of a running program. -/
structure State where
  store : Store
  /-- The positions that GOSUB saved, the last one first. -/
  stack : List Nat
  /-- The position of the line to be executed next. -/
  counter : Nat
  /-- The errors so far, the first one first. -/
  errors : List RuntimeError
  console : Console
  generator : Generator
  deriving DecidableEq, Repr

/-- The state before the first step. -/
def State.initial (console : Console) (seed : Int) : State :=
  ⟨Vector.replicate letterCount (.number 0), [], 0, [], console, .ofSeed seed⟩

/-- The state with nothing put out. -/
def State.cleared (s : State) : State := { s with console := s.console.cleared }

/-- The number of positions that GOSUB can save. -/
def maxStack : Nat := 16

/-- The position that END goes to, behind the last line of any program. -/
def endPosition : Nat := 9223372036854775807

/-- A computation that may change the state. What it changed before it halted stays changed. -/
abbrev Execution := ExceptT Halt (StateM State)

namespace Execution

variable {α : Type}

/-- Stops the statement. -/
def stop (r : Reason) : Execution α := throw (.stopped r)

/-- A result that may be out of reach. -/
def require : Except Reason α → Execution α
  | .ok a => pure a
  | .error r => stop r

/-- A part of the program that may not be there. -/
def look : Except Fault α → Execution α
  | .ok a => pure a
  | .error f => throw (.aborted (.fault f))

/-- A random number from one up to a limit. -/
def draw (limit : Nat) : Execution Int := do
  let s ← get
  let (drawn, g) := s.generator.below limit
  set { s with generator := g }
  match drawn with
  | some n => return (n : Int) + 1
  | none => throw (.aborted (.fault .noDraw))

/-- Uses the console. -/
def onConsole (f : Console → Except Halt α × Console) : Execution α := fun s =>
  let (r, c) := f s.console
  (r, { s with console := c })

/-- The value of a variable. -/
def load (l : Letter) : Execution Value := do
  return (← get).store.get l

/-- Sets a variable. -/
def assign (l : Letter) (v : Value) : Execution Unit :=
  modify fun s => { s with store := s.store.set l v }

/-- Goes to a position in the program. -/
def goTo (position : Nat) : Execution Unit :=
  modify fun s => { s with counter := position }

/-- Saves the present position. -/
def save : Execution Unit := do
  if (← get).stack.length = maxStack then
    stop .tooManyGosubs
  else
    modify fun s => { s with stack := s.counter :: s.stack }

/-- Goes back to the position that was saved last. -/
def restore : Execution Unit := do
  match (← get).stack with
  | [] => stop .returnWithoutGosub
  | position :: stack => modify fun s => { s with stack := stack, counter := position }

end Execution

end LineBasic

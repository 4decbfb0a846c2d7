import LineBasic.Machine.Step
import LineBasic.Text.Csv

/-!
# Sessions

A program is run piecemeal: step by step, several steps at a time, or to its end, with input handed in
between. An error does not end a session.

## Main definitions

* `Session.Op`: what can be asked of a session.
* `Session.Reply`: what comes back, with the state afterwards.
* `Session.apply`, `Session.play`: one operation and a list of them.
* `State.table`: the variables as a table.
-/

namespace LineBasic

/-- A field for a value. -/
def Csv.Field.ofValue : Value → Csv.Field
  | .number n => .integer n
  | .nothing => .missing

/-- The variables as a table of comma-separated values. -/
def State.table (s : State) : List Char :=
  Csv.write ["name", "value"] ((List.finRange letterCount).map fun l =>
    [.text [Letter.char l], .ofValue (s.store.get l)])

namespace Session

/-- What can be asked of a session. -/
inductive Op where
  /-- Execute one line. -/
  | step
  /-- Execute up to `n` lines, but none after an error. -/
  | steps (n : Nat)
  /-- Execute lines until there is none left or one fails. -/
  | run
  /-- Append to the input. -/
  | feed (text : List Char)
  /-- Show the variables. -/
  | table
  deriving DecidableEq, Repr

/-- What an operation reports besides the state. -/
inductive Report where
  /-- Whether there was a line to execute. -/
  | stepped (more : Bool)
  /-- How many lines were executed. -/
  | counted (done : Nat)
  /-- The variables as a table. -/
  | shown (table : List Char)
  /-- Nothing. -/
  | silent
  deriving DecidableEq, Repr

/-- The reply to an operation. What was put out stands in the state's console. -/
structure Reply where
  report : Report
  error : Option RuntimeError
  state : State
  deriving DecidableEq, Repr

/-- The error in which a step ended, if it did. The token that it is blamed on must be there. -/
def errorOf (p : Program) : Outcome → Except Abort (Option RuntimeError)
  | .more | .finished => .ok none
  | .failed e => do
    let _ ← (e.token.mapM p.token).mapError Abort.fault
    return some e
  | .aborted a => .error a

/-- One operation. A run takes at most `limit` steps. -/
def apply (image : Image) (limit : Nat) (s : State) : Op → Except Abort Reply
  | .step => do
    let (outcome, s) := image.step s.cleared
    match ← errorOf image.program outcome with
    | none => return ⟨.stepped (outcome = .more), none, s⟩
    | some e => return ⟨.silent, some e, s⟩
  | .steps n => do
    let (done, outcome, s) := image.steps n s.cleared
    return ⟨.counted done, ← errorOf image.program outcome, s⟩
  | .run => do
    let (_, outcome, s) := image.steps limit s.cleared
    return ⟨.silent, ← errorOf image.program outcome, s⟩
  | .feed text =>
    let s := s.cleared
    return ⟨.silent, none, { s with console := s.console.feed text }⟩
  | .table => return ⟨.shown s.table, none, s.cleared⟩

/-- The replies to a list of operations. -/
def play (image : Image) (limit : Nat) : State → List Op → Except Abort (List Reply)
  | _, [] => .ok []
  | s, op :: ops => do
    let reply ← apply image limit s op
    return reply :: (← play image limit reply.state ops)

variable {image : Image} {limit : Nat} {s : State} {op : Op} {ops : List Op}

theorem play_cons_of_error {a : Abort} (h : apply image limit s op = .error a) :
    play image limit s (op :: ops) = .error a := by
  rw [play, h]
  rfl

theorem play_cons_of_ok {reply : Reply} (h : apply image limit s op = .ok reply) :
    play image limit s (op :: ops) = (play image limit reply.state ops).map (reply :: ·) := by
  rw [play, h]
  show (do return reply :: (← play image limit reply.state ops) : Except Abort (List Reply)) = _
  cases play image limit reply.state ops <;> rfl

end Session

end LineBasic

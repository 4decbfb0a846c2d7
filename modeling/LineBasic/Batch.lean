import LineBasic.Machine.Step
import LineBasic.Program.Listing
import LineBasic.Program.Report

/-!
# Batch runs

A source text is parsed and run to its end, and everything that goes wrong is reported on the console. On
request the tokens and the nodes are listed first.

## Main definitions

* `Batch.Failure`: what a batch run cannot report.
* `Batch.load`: the part before the program starts.
* `Batch.run`: a batch run.
-/

namespace LineBasic.Batch

/-- What a batch run cannot report on the console. -/
inductive Failure where
  /-- The source cannot be cut into tokens. -/
  | scan (e : ScanError)
  /-- A write fails that is not the program's own. -/
  | write (e : WriteError)
  /-- The tokens have no end. -/
  | noEnd
  /-- The program's tree is unsound. -/
  | fault (f : Fault)
  deriving DecidableEq, Repr

/-- A part of a batch run. -/
abbrev Job := ExceptT Failure (StateM Console)

/-- Writes, which may fail. -/
def put (text : String) : Job Unit := fun c =>
  match c.write text with
  | (.ok _, c) => (.ok (), c)
  | (.error e, c) => (.error (.write e), c)

/-- Writes if asked to. -/
def putIf (wanted : Bool) (text : Job String) : Job Unit := do
  if wanted then
    put (← text)

/-- Goes on unless a part of the program is missing. -/
def sound {α : Type} : Except Fault α → Job α
  | .ok a => pure a
  | .error f => throw (.fault f)

/-- What is reported when there is no memory left. -/
def outOfMemory : String := "Out of memory :(\n"

/-- Runs a program to its end, and yields how the last step ended and the state after it. -/
def execute (limit : Nat) (seed : Int) (image : Image) : Job (Outcome × State) := fun c =>
  let (_, outcome, s) := image.steps limit (.initial c seed)
  (.ok (outcome, s), s.console)

/-- Reports how a run ended. -/
def conclude (p : Program) : Outcome → Job Unit
  | .more | .finished => pure ()
  | .failed e => put (e.report p)
  | .aborted .outOfMemory => put outOfMemory
  | .aborted (.fault f) => throw (.fault f)

/-- Runs a program and reports how it ended. -/
def runProgram (limit : Nat) (seed : Int) (p : Program) : Job State := do
  let image ← sound (Image.ofProgram p)
  let (outcome, s) ← execute limit seed image
  conclude p outcome
  return { s with console := ← get }

/-- Parses a source text, listing what was asked for, and reports a syntax error. -/
def load (debug : Bool) (source : List Char) : Job (Option Program) := do
  match scan source with
  | .error e => throw (.scan e)
  | .ok tokens =>
    putIf debug (pure (listTokens source tokens))
    match Program.ofTokens source tokens with
    | .error (.wrong e) =>
      put (e.report source tokens)
      return none
    | .error .outOfTokens => throw .noEnd
    | .ok p =>
      putIf debug (sound p.listNodes)
      return some p

/-- Parses and runs a source text. Yields the program and its last state, unless the text is no program. A
run takes at most `limit` steps. -/
def run (limit : Nat) (seed : Int) (debug : Bool) (source : List Char) : Job (Option (Program × State)) := do
  match ← load debug source with
  | none => return none
  | some p => return some (p, ← runProgram limit seed p)

end LineBasic.Batch

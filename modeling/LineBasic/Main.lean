import LineBasic.Command.Run

/-!
# The command line

The command on the files and streams of the system. Input is read line by line, when the program asks for
it: a step that finds no input is taken back, and taken again with one more line.
-/

namespace LineBasic.CommandLine

/-- More steps than any run takes. -/
def stepLimit : Nat := 1000000000000000000

/-- The bytes of a file of the system. -/
def fileBytes (name : String) : IO (Except PathError (List UInt8)) := do
  try
    return .ok (← IO.FS.readBinFile name).toList
  catch
    | .noFileOrDirectory .. => return .error .notFound
    | .inappropriateType _ 21 _ => return .error .isDirectory
    | .invalidArgument _ 36 _ => return .error .tooLong
    | _ => return .error .notDirectory

/-- Shows what a console put out behind the part that was shown before. -/
def showFrom (shown : Console) (c : Console) : IO Unit := do
  IO.print (String.ofList (c.output.toList.drop shown.output.length))
  (← IO.getStdout).flush
  IO.eprint (String.ofList (c.diagnostics.toList.drop shown.diagnostics.length))

/-- Whether a step found no input. -/
def starved : Outcome → Bool
  | .failed e => e.reason = .ioFailed .endOfInput
  | _ => false

/-- Runs a program to its end. `shown` is the console as it was shown last. -/
partial def drive (image : Image) (shown : Console) (s : State) : IO (Outcome × State) := do
  let (outcome, next) := image.step s
  showFrom shown next.console
  if starved outcome then
    let line ← (← IO.getStdin).getLine
    if line.isEmpty then
      return (outcome, next)
    else
      drive image next.console { s with console := s.console.feed line.toList }
  else
    match outcome with
    | .more =>
      let next := next.cleared
      drive image next.console next
    | _ => return (outcome, next)

/-- Does a job and shows what it puts out. -/
def perform {α : Type} (job : Batch.Job α) : IO (Except Batch.Failure α) := do
  let (result, c) := job.run (.ofInput [])
  showFrom (.ofInput []) c
  return result

/-- Saves the tables of a run. -/
def saveTables (saves : List Command.Save) : IO Unit := do
  for s in saves do
    IO.FS.writeFile s.path (String.ofList s.content)
    IO.print s.message

/-- Runs a program that has been loaded, and yields the status of the command. -/
def runLoaded (args : Arguments) (p : Program) : IO Nat := do
  match Image.ofProgram p with
  | .error f =>
    IO.eprintln f.message
    return 1
  | .ok image =>
    let seed ← IO.monoNanosNow
    let (outcome, s) ← drive image (.ofInput []) (.initial (.ofInput []) seed)
    let _ ← perform (Batch.conclude p outcome)
    if args.debug then
      saveTables (Command.saves args.filename p s)
    return Command.statusOf s

/-- The command, and its status. -/
def runCommand (arguments : List String) : IO Nat := do
  match Arguments.parse arguments with
  | .error .help =>
    IO.println "usage: [-h] [--debug] filename"
    return 0
  | .error .rejected =>
    IO.eprintln "usage: [-h] [--debug] filename"
    return 2
  | .ok args =>
    match Command.sourceOf (← fileBytes args.filename) with
    | .error e =>
      IO.print (e.message args.filename)
      return 1
    | .ok source =>
      match ← perform (Batch.load args.debug source) with
      | .error _ =>
        IO.eprintln "the program cannot be read"
        return 1
      | .ok none => return 1
      | .ok (some p) => runLoaded args p

end LineBasic.CommandLine

/-- The command on the system's files and streams. -/
def main (arguments : List String) : IO UInt32 := do
  return UInt32.ofNat (← LineBasic.CommandLine.runCommand arguments)

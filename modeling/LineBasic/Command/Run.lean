import LineBasic.Batch
import LineBasic.Command.Arguments
import LineBasic.Command.Directory
import LineBasic.Program.Table
import LineBasic.Session
import LineBasic.Text.Quoted

/-!
# The command

The command reads a program from a file and runs it. With `--debug` it also lists the program and afterwards
saves tables next to the file: the variables, the tree and the tokens.

## Main definitions

* `Command.sourceOf`: the source text in a file's bytes.
* `Command.saves`: the tables that are saved, and where.
* `Command.run`: the command in a directory.
-/

namespace LineBasic.Command

/-- Why a program cannot be read. -/
inductive ReadError where
  | path (e : PathError)
  | bytes (d : Utf8.Defect)
  deriving DecidableEq, Repr

/-- The source text in a file's bytes, with all its lines ended alike. -/
def sourceOf (bytes : Except PathError (List UInt8)) : Except ReadError (List Char) :=
  match bytes with
  | .error e => .error (.path e)
  | .ok bs =>
    match Utf8.decode bs with
    | .error d => .error (.bytes d)
    | .ok cs => .ok (Utf8.normalizeLineEnds cs)

/-- What the command says about a file that it cannot read. -/
def ReadError.message (filename : String) : ReadError → String
  | .path .notFound => "Error: File '" ++ filename ++ "' not found\n"
  | .path .isDirectory => "Error: [Errno 21] Is a directory: " ++ quotedName filename ++ "\n"
  | .path .notDirectory => "Error: [Errno 20] Not a directory: " ++ quotedName filename ++ "\n"
  | .path .tooLong => "Error: [Errno 36] File name too long: " ++ quotedName filename ++ "\n"
  | .bytes d => "Error: " ++ d.message ++ "\n"

/-- A table to be saved. -/
structure Save where
  label : String
  path : String
  content : List Char
  deriving DecidableEq, Repr

/-- What the command says about a table that it has saved. -/
def Save.message (s : Save) : String := "\n" ++ s.label ++ " saved to: " ++ s.path ++ "\n"

/-- The tables that are saved after a run, in their order. -/
def saves (filename : String) (p : Program) (s : State) : List Save :=
  let base := stem filename
  [⟨"Variable state", base ++ ".csv", s.table⟩,
    ⟨"Syntax tree", base ++ ".tree.csv", p.nodeTable⟩,
    ⟨"Tokens", base ++ ".tokens.csv", p.tokenTable⟩]

/-- Why the command ends without an answer. -/
inductive Failure where
  | usage (u : Usage)
  /-- The name of the program holds a NUL, which no file name does. -/
  | nulInName
  | batch (e : Batch.Failure)
  /-- A table cannot be saved. -/
  | path (e : PathError)
  deriving DecidableEq, Repr

/-- What the command leaves behind. -/
structure Result where
  status : Nat
  output : String
  diagnostics : String
  directory : Directory
  deriving DecidableEq, Repr

/-- Saves tables one after another, and yields the directory and what is said about them. -/
def saveAll : List Save → Directory → Except Failure (String × Directory)
  | [], d => .ok ("", d)
  | s :: rest, d =>
    match d.write s.path (Utf8.encode s.content) with
    | .error e => .error (.path e)
    | .ok d => (saveAll rest d).map fun (said, d) => (s.message ++ said, d)

/-- The status with which the command ends after a run. -/
def statusOf (s : State) : Nat := if s.errors = [] then 0 else 1

/-- The command in a directory, with some input. A run takes at most `limit` steps. -/
def run (limit : Nat) (seed : Int) (d : Directory) (arguments : List String) (input : List Char) :
    Except Failure Result := do
  let args ← (Arguments.parse arguments).mapError .usage
  if args.filename.toList.contains '\x00' then
    throw .nulInName
  match sourceOf (d.read args.filename) with
  | .error e => return ⟨1, e.message args.filename, "", d⟩
  | .ok source =>
    let (finished, console) := (Batch.run limit seed args.debug source).run (.ofInput input)
    match ← finished.mapError .batch with
    | none => return ⟨1, console.output, console.diagnostics, d⟩
    | some (p, s) =>
      let (said, d) ← saveAll (if args.debug then saves args.filename p s else []) d
      return ⟨statusOf s, console.output ++ said, console.diagnostics, d⟩

end LineBasic.Command

/-!
# Directories

The files that the command sees, under paths that start from where it runs.

## Main definitions

* `Directory`: files and folders by their paths.
* `Directory.read`, `Directory.write`: the bytes of a file.
* `Directory.changes`: the files that are new or different in a later directory.
* `stem`: a path without its extension.
-/

namespace LineBasic

/-- The names on the way to a file or folder. -/
abbrev Path := List String

/-- Why a path leads to no file. -/
inductive PathError where
  | notFound
  | isDirectory
  | notDirectory
  /-- The path or a name in it is too long. -/
  | tooLong
  deriving DecidableEq, Repr

/-- What a path leads to. -/
inductive Entry where
  | file (bytes : List UInt8)
  | folder
  deriving DecidableEq, Repr

/-- Files with their bytes, and folders. A folder that something lies in need not be listed. -/
structure Directory where
  files : List (Path × List UInt8)
  folders : List Path
  deriving DecidableEq, Repr

/-- The steps that a written path takes. -/
def pathSteps (path : String) : Path :=
  (path.toList.splitOn '/').map String.ofList

/-- The names in a written path that only goes down. -/
def Path.ofString (path : String) : Path :=
  (pathSteps path).filter fun name => name ≠ "" ∧ name ≠ "."

/-- The number of bytes that a name may have. -/
def maxNameSize : Nat := 255

/-- The number of bytes that a written path may have. -/
def maxPathSize : Nat := 4095

/-- A path as it is written. -/
def Path.text (path : Path) : String := "/".intercalate path

namespace Directory

/-- The directory that holds files and folders under written paths. -/
def ofFiles (files : List (String × List UInt8)) (folders : List String) : Directory :=
  ⟨files.map fun (path, bytes) => (Path.ofString path, bytes), folders.map Path.ofString⟩

/-- What lies at a path. -/
def entry? (d : Directory) (path : Path) : Option Entry :=
  match d.files.lookup path with
  | some bytes => some (.file bytes)
  | none =>
    if path = [] ∨ d.folders.any path.isPrefixOf ∨ d.files.any fun f => path.isPrefixOf f.1 then
      some .folder
    else
      none

/-- Why steps that are taken from above the directory lead to no file: there are only folders there, and no
name is known. -/
def outside : Path → PathError
  | [] => .isDirectory
  | step :: steps =>
    if step = "" ∨ step = "." ∨ step = ".." then outside steps
    else if maxNameSize < step.utf8ByteSize then .tooLong
    else .notFound

/-- Where steps lead that are taken from a place. Each step needs a folder to be taken from. -/
def walk (d : Directory) : (place : Path) → Path → Except PathError Path
  | place, [] => .ok place
  | place, step :: steps =>
    match d.entry? place with
    | none => .error .notFound
    | some (.file _) => .error .notDirectory
    | some .folder =>
      if step = "" ∨ step = "." then d.walk place steps
      else if step = ".." then
        if place ≠ [] then d.walk place.dropLast steps
        else .error (outside steps)
      else if maxNameSize < step.utf8ByteSize then .error .tooLong
      else d.walk (place ++ [step]) steps

/-- Where a written path leads. -/
def locate (d : Directory) (path : String) : Except PathError Path :=
  if maxPathSize < path.utf8ByteSize then .error .tooLong
  else if path = "" then .error .notFound
  else if path.toList.head? = some '/' then .error (outside (pathSteps path))
  else d.walk [] (pathSteps path)

/-- The bytes of the file that a written path leads to. -/
def read (d : Directory) (path : String) : Except PathError (List UInt8) := do
  match d.entry? (← d.locate path) with
  | some (.file bytes) => return bytes
  | some .folder => throw .isDirectory
  | none => throw .notFound

/-- The directory with other bytes at a place. -/
def replace (d : Directory) (place : Path) (bytes : List UInt8) : Directory :=
  { d with files := (place, bytes) :: d.files.filter fun f => f.1 ≠ place }

/-- The directory after a file has been written. -/
def write (d : Directory) (path : String) (bytes : List UInt8) : Except PathError Directory := do
  let place ← d.locate path
  match d.entry? place with
  | some .folder => throw .isDirectory
  | _ => return d.replace place bytes

/-- The files of a later directory that are new or different, ordered by their written paths. -/
def changes (before after : Directory) : List (String × List UInt8) :=
  let changed := after.files.filter fun (path, bytes) => before.files.lookup path ≠ some bytes
  (changed.map fun (path, bytes) => (path.text, bytes)).mergeSort fun a b => a.1 ≤ b.1

end Directory

/-- The length of the extension of a file name: from its last dot on, unless there are only dots before
it. -/
def extensionLength (name : List Char) : Nat :=
  let after := name.reverse.takeWhile (· ≠ '.')
  let before := name.take (name.length - (after.length + 1))
  if name.contains '.' && before.any (· ≠ '.') then after.length + 1 else 0

/-- A written path without the extension of its last name. -/
def stem (path : String) : String :=
  let cs := path.toList
  let name := (cs.reverse.takeWhile (· ≠ '/')).reverse
  String.ofList (cs.take (cs.length - extensionLength name))

end LineBasic

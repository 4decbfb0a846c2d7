/-!
# Tables of comma-separated values

Text is written between double quotes, with a double quote inside written twice and line ends left as they
are. Numbers stand bare, and a missing value is an empty field. Each row ends with a line feed.

## Main definitions

* `Csv.Field`: what a field of a table holds.
* `Csv.write`: a header of column names and the rows under it.
-/

namespace LineBasic.Csv

/-- What a field of a table holds. -/
inductive Field where
  | text (cs : List Char)
  | integer (n : Int)
  | missing
  deriving DecidableEq, Repr

/-- A field for a reference that may be missing. -/
def Field.ofNat? : Option Nat → Field
  | some n => .integer n
  | none => .missing

/-- What stands between the quotes of a text. -/
def escape : List Char → List Char
  | [] => []
  | c :: cs => if c = '"' then '"' :: '"' :: escape cs else c :: escape cs

/-- A field as it is written. -/
def Field.write : Field → List Char
  | .text cs => '"' :: escape cs ++ ['"']
  | .integer n => (toString n).toList
  | .missing => []

/-- A row as it is written. -/
def writeRow (fields : List Field) : List Char :=
  [','].intercalate (fields.map Field.write) ++ ['\n']

/-- A table: the names of its columns and its rows. -/
def write (columns : List String) (rows : List (List Field)) : List Char :=
  writeRow (columns.map fun name => .text name.toList) ++ rows.flatMap writeRow

end LineBasic.Csv

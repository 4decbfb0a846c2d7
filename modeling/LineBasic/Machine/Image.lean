import LineBasic.Machine.Value

/-!
# Programs ready to run

The lines of a program are numbered by their positions. A table leads from line numbers to positions; of
several lines with one number it knows the last.

## Main definitions

* `LineTable`: line numbers and positions, in ascending order of the numbers.
* `Image`: a program with its lines and their table.
* `Image.ofProgram`: the image of a program.

Looking up a number after an entry is described by `LineTable.find?_insert`.
-/

namespace LineBasic

/-- Line numbers with the positions of their lines, in ascending order of the numbers. -/
abbrev LineTable := List (Nat × Nat)

namespace LineTable

/-- Enters a number, in place of an entry that it has already. -/
def insert (number position : Nat) : LineTable → LineTable
  | [] => [(number, position)]
  | (n, q) :: table =>
    if number < n then (number, position) :: (n, q) :: table
    else if number = n then (number, position) :: table
    else (n, q) :: insert number position table

/-- The position of the line that has a number. -/
def find? (table : LineTable) (number : Int) : Option Nat :=
  (List.find? (fun entry => (entry.1 : Int) = number) table).map (·.2)

@[simp] theorem find?_nil (number : Int) : find? [] number = none := rfl

theorem find?_cons (n q : Nat) (table : LineTable) (number : Int) :
    find? ((n, q) :: table) number = if (n : Int) = number then some q else find? table number := by
  unfold find?
  rw [List.find?_cons]
  by_cases h : (n : Int) = number <;> simp [h]

/-- A number that was entered leads to its position, and no other number is affected. -/
theorem find?_insert (number position : Nat) (table : LineTable) (wanted : Int) :
    find? (insert number position table) wanted =
      if (number : Int) = wanted then some position else find? table wanted := by
  induction table with
  | nil => rw [insert, find?_cons]
  | cons entry table ih =>
    obtain ⟨n, q⟩ := entry
    rw [insert]
    split
    · rw [find?_cons]
    · split
      · rename_i h
        subst h
        rw [find?_cons, find?_cons]
        split <;> rfl
      · rename_i h
        rw [find?_cons, find?_cons, ih]
        by_cases hn : (n : Int) = wanted
        · rw [if_pos hn, if_pos hn, if_neg]
          omega
        · rw [if_neg hn, if_neg hn]

end LineTable

/-- A program with its lines and the table of their numbers. -/
structure Image where
  program : Program
  lines : Array NodeId
  table : LineTable
  deriving DecidableEq, Repr

namespace Image

/-- The number of a line, if it has one. -/
def lineNumber? (p : Program) (line : NodeId) : Except Fault (Option Nat) := do
  let n ← p.node line
  match n.tag with
  | .markedLine => return some (← p.number (← Program.reference n.token))
  | _ => return none

/-- Enters the lines from a position on into a table. -/
def enterLines (p : Program) (position : Nat) : List NodeId → LineTable → Except Fault LineTable
  | [], table => .ok table
  | line :: lines, table => do
    match ← lineNumber? p line with
    | some number => enterLines p (position + 1) lines (table.insert number position)
    | none => enterLines p (position + 1) lines table

/-- The image of a program. Its lines are the children of the first node. -/
def ofProgram (p : Program) : Except Fault Image := do
  let root ← p.node 0
  let lines := p.arena.children root
  return ⟨p, lines.toArray, ← enterLines p 0 lines []⟩

theorem ofProgram_of_root {p : Program} {root : Node} (h : p.node 0 = .ok root) :
    ofProgram p = (enterLines p 0 (p.arena.children root) []).map (⟨p, (p.arena.children root).toArray, ·⟩) := by
  rw [ofProgram, h]
  show (do return ⟨p, (p.arena.children root).toArray, ← enterLines p 0 (p.arena.children root) []⟩ :
    Except Fault Image) = _
  cases enterLines p 0 (p.arena.children root) [] <;> rfl

/-- The position of the line that a jump leads to. -/
def position? (image : Image) : Value → Option Nat
  | .number n => image.table.find? n
  | .nothing => none

/-- The token of the statement that a line holds, on which errors of the line are blamed. -/
def statementToken (image : Image) (line : NodeId) : Except Fault (Option TokenId) := do
  let n ← image.program.node line
  let body ← image.program.node (← Program.reference n.lhs)
  return body.token

end Image

end LineBasic

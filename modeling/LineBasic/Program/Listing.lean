import LineBasic.Program.Basic
import LineBasic.Text.CharClass
import LineBasic.Text.Printable
import LineBasic.Text.Utf8

/-!
# Listings of tokens and nodes

One line for each token and one for each node, with the children of a node shown by their positions.

## Main definitions

* `listTokens`: the listing of tokens.
* `Program.listNodes`: the listing of nodes.
* `Token.describe`, `Node.describe`: a token and a node in one line each.
-/

namespace LineBasic

/-- A text filled up with spaces to a width. -/
def padRight (width : Nat) (s : String) : String :=
  s ++ String.ofList (List.replicate (width - s.length) ' ')

/-- A line of a listing: nothing blank stands at its end. -/
def listingLine (s : String) : String :=
  String.ofList (dropTrailing isWhitespace s.toList ++ ['\n'])

/-- The beginning of each line of a listing. -/
def listingHead (what : String) (i : Nat) : String :=
  what ++ " #" ++ padRight 3 (toString i) ++ " "

/-- The text of a token as it is listed: as it is if all of it can be shown, and as the digits of its bytes
otherwise. -/
def shownText (text : List Char) : List Char :=
  if text.all isPrintable then text else Hex.bytes (Utf8.encode text)

/-- A token in one line. -/
def Token.describe (t : Token) : String :=
  "Token(" ++ t.tag.name ++ ", " ++ toString t.start ++ ", " ++ toString t.stop ++ ")"

/-- A reference that may be missing. -/
def describeReference : Option Nat → String
  | some i => toString i
  | none => "None"

/-- A node in one line. -/
def Node.describe (n : Node) : String :=
  "Node(" ++ n.tag.name ++ ", token=" ++ describeReference n.token ++ ", lhs=" ++
    describeReference n.lhs ++ ", rhs=" ++ describeReference n.rhs ++ ")"

/-- The listing of tokens. -/
def listTokens (source : List Char) (tokens : List Token) : String :=
  String.join (tokens.mapIdx fun i t =>
    listingLine (listingHead "Token" i ++ t.tag.label ++ " " ++
      String.ofList (shownText (t.text source))))

namespace Program

/-- How a reference to a node is shown. -/
def showReference (i : Option Nat) : String := "#" ++ describeReference i

/-- How the children of a node with a range are shown. -/
def showChildren (p : Program) (n : Node) : String :=
  " ".intercalate ((p.arena.children n).map fun i => showReference (some i))

/-- What is shown of a node behind its tag. -/
def nodeBody (p : Program) (n : Node) : Except Fault String := do
  let text : Except Fault String := do
    return String.ofList (← p.tokenText (← reference n.token))
  match n.tag with
  | .call => return (← text) ++ " " ++ p.showChildren n
  | .root | .print | .input | .expression | .term _ => return p.showChildren n
  | .markedLine => return ".line_number = " ++ (← text) ++ ", " ++ showReference n.lhs
  | .nakedLine | .factor _ | .goto | .gosub => return showReference n.lhs
  | .var | .number | .string => text
  | .branch => return "IF " ++ showReference n.lhs ++ " THEN " ++ showReference n.rhs
  | .predicate =>
    let operator ← p.token (← reference n.token)
    return showReference n.lhs ++ " " ++ operator.tag.label ++ " " ++ showReference n.rhs
  | .assign => return "LET " ++ (← text) ++ " = " ++ showReference n.rhs
  | .action _ => return ""

/-- The line of a listing that shows a node. -/
def nodeLine (p : Program) (i : NodeId) (n : Node) : Except Fault String := do
  return listingLine (listingHead "Node" i ++ padRight 12 n.tag.label ++ (← p.nodeBody n))

/-- The listing of nodes. -/
def listNodes (p : Program) : Except Fault String := do
  return String.join (← (p.arena.nodes.toList.mapIdx fun i n => p.nodeLine i n).mapM id)

end Program

end LineBasic

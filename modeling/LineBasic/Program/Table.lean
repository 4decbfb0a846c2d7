import LineBasic.Program.Basic
import LineBasic.Text.Csv

/-!
# Programs as tables

The nodes and the tokens of a program as tables of comma-separated values.

## Main definitions

* `Program.nodeTable`: a row for each node.
* `Program.tokenTable`: a row for each token.
-/

namespace LineBasic

/-- The row of a node. -/
def Node.row (n : Node) : List Csv.Field :=
  [.text n.tag.name.toList, .ofNat? n.token, .ofNat? n.lhs, .ofNat? n.rhs]

/-- The row of a token. -/
def Token.row (source : List Char) (t : Token) : List Csv.Field :=
  [.text t.tag.name.toList, .integer t.start, .integer t.stop, .text (t.text source)]

namespace Program

/-- The nodes of a program as a table. -/
def nodeTable (p : Program) : List Char :=
  Csv.write ["tag", "token", "lhs", "rhs"] (p.arena.nodes.toList.map Node.row)

/-- The tokens of a program as a table. -/
def tokenTable (p : Program) : List Char :=
  Csv.write ["tag", "start", "end", "text"] (p.tokens.toList.map (Token.row p.source))

end Program

end LineBasic

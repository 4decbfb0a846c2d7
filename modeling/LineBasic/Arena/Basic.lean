import LineBasic.Grammar.Tree

/-!
# Arenas

A syntax tree in flat form: a list of nodes, each of one fixed shape, that refer to one another by their
positions. A node with any number of children owns a range of a second list, which holds the positions of
the children.

## Main definitions

* `NodeTag`, `Node`, `Arena`: nodes and the two lists.
* `NodeTag.hasRange`: the nodes whose two references are the bounds of a range.
* `Arena.children`: the positions of the children of a node with a range.
-/

namespace LineBasic

/-- What a node stands for. -/
inductive NodeTag where
  | root
  | nakedLine
  | markedLine
  | print
  | input
  | assign
  | branch
  | goto
  | gosub
  | action (a : Action)
  | string
  | expression
  | term (s : Sign)
  | factor (o : Scale)
  | predicate
  | var
  | number
  | call
  deriving DecidableEq, Repr

/-- The name of a one-word statement. -/
def Action.name : Action → String
  | .ret => "RETURN"
  | .clear => "CLEAR"
  | .list => "LIST"
  | .run => "RUN"
  | .halt => "END"

/-- All one-word statements. -/
def Action.all : List Action := [.ret, .clear, .list, .run, .halt]

namespace NodeTag

/-- The name of a tag in tables. -/
def name : NodeTag → String
  | .root => "ROOT"
  | .nakedLine => "LINE_NAKED"
  | .markedLine => "LINE_MARKED"
  | .print => "STMT_PRINT"
  | .input => "STMT_INPUT"
  | .assign => "STMT_LET"
  | .branch => "STMT_IF"
  | .goto => "STMT_GOTO"
  | .gosub => "STMT_GOSUB"
  | .action a => "STMT_" ++ a.name
  | .string => "STRING"
  | .expression => "EXPRESSION"
  | .term s => "TERM_" ++ s.name
  | .factor o => "FACTOR_" ++ o.name
  | .predicate => "PREDICATE"
  | .var => "VARIABLE"
  | .number => "NUMBER"
  | .call => "CALL"

/-- The name of a tag in listings. -/
def label (t : NodeTag) : String := t.name.map Char.toLower

/-- All tags. -/
def all : List NodeTag :=
  [.root, .nakedLine, .markedLine, .print, .input, .assign, .branch, .goto, .gosub] ++
    Action.all.map .action ++
    [.string, .expression, .term .plus, .term .minus, .factor .times, .factor .over, .predicate,
      .var, .number, .call]

/-- The tag that has a name, if there is one. -/
def ofName? (s : String) : Option NodeTag := all.find? fun t => t.name == s

/-- Whether the references of a node are the bounds of a range of children. -/
def hasRange : NodeTag → Bool
  | .root | .print | .input | .expression | .term _ | .call => true
  | _ => false

end NodeTag

/-- The position of a node in its arena. -/
abbrev NodeId := Nat

/-- A node: its tag, the token that it was made from, and two references, which name nodes or bound a range
of children. A node has none of what its tag has no use for. -/
structure Node where
  tag : NodeTag
  token : Option TokenId
  lhs : Option Nat
  rhs : Option Nat
  deriving DecidableEq, Repr

/-- A tree in flat form. The first node is the root, and `extra` holds the ranges of children. -/
structure Arena where
  nodes : Array Node
  extra : Array NodeId
  deriving DecidableEq, Repr

namespace Arena

/-- The part of the list of children that a node owns. A bound that is missing is an end of the list. -/
def children (a : Arena) (n : Node) : List NodeId :=
  (a.extra.extract (n.lhs.getD 0) (n.rhs.getD a.extra.size)).toList

end Arena

end LineBasic

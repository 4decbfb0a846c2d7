import LineBasic.Arena.Basic

/-!
# Laying out a tree

The lines of a program become an arena. Children come before their parents and in their order in the
program, so the nodes behind the root are the nodes of the tree in postorder. A range of children is
written when the node that owns it is made, and the range of the root, whose node comes first, last of all.

## Main definitions

* `Layout`: what has been laid out so far.
* `Expr.layout`, `Item.layout`, `Stmt.layout`, `Line.layout`: the nodes of a part of the tree.
* `Arena.ofLines`: the arena of a program.
-/

namespace LineBasic

/-- Adding to an arena. -/
abbrev Layout := StateM Arena

namespace Layout

/-- Adds a node. -/
def node (tag : NodeTag) (token : Option TokenId) (lhs rhs : Option Nat) : Layout NodeId := fun a =>
  (a.nodes.size, { a with nodes := a.nodes.push ⟨tag, token, lhs, rhs⟩ })

/-- Adds a range of children and gives its bounds. -/
def range (children : List NodeId) : Layout (Nat × Nat) := fun a =>
  let extra := a.extra ++ children
  ((a.extra.size, extra.size), { a with extra := extra })

/-- Adds a node that owns a range of children. -/
def parent (tag : NodeTag) (token : Option TokenId) (children : List NodeId) : Layout NodeId := do
  let (lo, hi) ← range children
  node tag token (some lo) (some hi)

end Layout

open Layout

/-- What laying out an expression of a level gives: for an operand its node, for a product the nodes of its
factors and for a sum those of its terms, since these become the children of a node that is made later. -/
abbrev Placed : Level → Type
  | .operand => NodeId
  | .product => List NodeId
  | .sum => List NodeId

/-- Lays out an expression. -/
def Expr.layout : {l : Level} → ParsedExpr l → Layout (Placed l)
  | _, .var v => node .var (some v) none none
  | _, .number n => node .number (some n) none none
  | _, .group e => do
    parent .expression none (← e.layout)
  | _, .abs mark e => do
    let argument ← parent .expression none (← e.layout)
    parent .call (some mark) [argument]
  | _, .rnd mark e => do
    let argument ← parent .expression none (← e.layout)
    parent .call (some mark) [argument]
  | _, .mod mark e₁ e₂ => do
    let first ← parent .expression none (← e₁.layout)
    let second ← parent .expression none (← e₂.layout)
    parent .call (some mark) [first, second]
  | _, .factor a => do
    return [← node (.factor .times) none (some (← a.layout)) none]
  | _, .scale p o a => do
    let factors ← p.layout
    return factors ++ [← node (.factor o) none (some (← a.layout)) none]
  | _, .signed s p => do
    return [← parent (.term s) none (← p.layout)]
  | _, .add e s p => do
    let terms ← e.layout
    return terms ++ [← parent (.term s) none (← p.layout)]

/-- Lays out an expression that stands in a statement. -/
def Expr.layoutWhole (e : ParsedExpr .sum) : Layout NodeId := do
  parent .expression none (← e.layout)

/-- Lays out what PRINT prints. -/
def Item.layout : ParsedItem → Layout NodeId
  | .text s => node .string (some s) none none
  | .value e => e.layoutWhole

/-- Lays out a statement. -/
def Stmt.layout : ParsedStmt → Layout NodeId
  | .print mark item more => do
    parent .print (some mark) (← (item :: more).mapM Item.layout)
  | .input mark v more => do
    parent .input (some mark) (← (v :: more).mapM fun v => node .var (some v) none none)
  | .assign v e => do
    node .assign (some v) none (some (← e.layoutWhole))
  | .branch mark e₁ _ relation e₂ body => do
    let lhs ← e₁.layoutWhole
    let rhs ← e₂.layoutWhole
    let condition ← node .predicate (some relation) (some lhs) (some rhs)
    node .branch (some mark) (some condition) (some (← body.layout))
  | .goto mark e => do
    node .goto (some mark) (some (← e.layoutWhole)) none
  | .gosub mark e => do
    node .gosub (some mark) (some (← e.layoutWhole)) none
  | .action mark a => node (.action a) (some mark) none none

/-- Lays out a line. -/
def Line.layout (line : ParsedLine) : Layout NodeId := do
  let body ← line.body.layout
  match line.number with
  | some n => node .markedLine (some n) (some body) none
  | none => node .nakedLine none (some body) none

/-- The arena of a program with these lines. -/
def Arena.ofLines (lines : List ParsedLine) : Arena :=
  let layout : Layout (Nat × Nat) := do range (← lines.mapM Line.layout)
  let ((lo, hi), a) := layout ⟨#[⟨.root, none, none, none⟩], #[]⟩
  { a with nodes := a.nodes.setIfInBounds 0 ⟨.root, none, some lo, some hi⟩ }

end LineBasic

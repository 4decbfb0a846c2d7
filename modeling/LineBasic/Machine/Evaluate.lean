import LineBasic.Machine.Arithmetic
import LineBasic.Machine.Image
import LineBasic.Machine.Input
import LineBasic.Machine.State

/-!
# Evaluating nodes

Evaluating a node carries out what it stands for and yields its value. An expression yields a number and a
statement nothing. Operands come before operators, from left to right, and each result is checked before the
next operand is looked at.

The parser puts expressions where values are wanted and statements where they are not. A tree made by hand may
mix them: then an expression is evaluated and its value forgotten, and a statement is carried out and yields
nothing.

## Main definitions

* `applyFunction`: the value of a function.
* `Image.evaluateWith`: the effect and the value of a node, given the evaluation of its parts.
* `Image.evaluate`: the effect and the value of a node, within a number of frames.
-/

namespace LineBasic

open Execution
open Program (reference)

/-- The value of a function. A token that names no function and a wrong number of arguments have none. -/
def applyFunction : Tag → List Value → Execution Int
  | .builtin .abs, [a] => do require (checked (← look a.toInt).natAbs)
  | .builtin .rnd, [a] => do draw (max 1 (← look a.toInt)).toNat
  | .builtin .mod, [_, .number 0] => stop .divisionByZero
  | .builtin .mod, [a, b] => do require (remainder (← look a.toInt) (← look b.toInt))
  | _, _ => stop .notImplemented

/-- How a member of a term takes part in it. What is no factor divides. -/
def NodeTag.scale : NodeTag → Scale
  | .factor o => o
  | _ => .over

/-- How a member of a sum takes part in it. What is no term is subtracted. -/
def NodeTag.sign : NodeTag → Sign
  | .term s => s
  | _ => .minus

/-- The number of frames in which a line is evaluated. A program that was parsed needs far less, as nesting is
limited. -/
def maxFrames : Nat := 990

namespace Image

/-- What PRINT writes for an item, given the evaluation of nodes. -/
def itemText (image : Image) (value : NodeId → Execution Value) (i : NodeId) : Execution String := do
  let n ← look (image.program.node i)
  match n.tag with
  | .string => return String.ofList (← look (reference n.token >>= image.program.string))
  | _ => return (← value i).text

/-- Asks for the value of one of INPUT's variables. -/
def inputVariable (image : Image) (i : NodeId) : Execution Unit := do
  let n ← look (image.program.node i)
  let l ← look (reference n.token >>= image.program.letter)
  assign l (.number (← onConsole Console.readNumber))

/-- Goes to the line that has a number. -/
def jump (image : Image) (number : Value) : Execution Unit :=
  match image.position? number with
  | some position => goTo position
  | none => stop (.missingLine number)

/-- Evaluates a node, given the evaluation of the nodes that it names, of PRINT's items and of a function's
arguments. -/
def evaluateWith (image : Image) (operand item argument : NodeId → Execution Value) (i : NodeId) :
    Execution Value := do
  let n ← look (image.program.node i)
  match n.tag with
  | .number => return .number (← look (reference n.token >>= image.program.number))
  | .var => load (← look (reference n.token >>= image.program.letter))
  | .nakedLine | .markedLine | .factor _ => operand (← look (reference n.lhs))
  | .term _ =>
    let product ← (image.program.arena.children n).foldlM (fun product j => do
      let v ← operand j
      let member ← look (image.program.node j)
      require (member.tag.scale.apply product (← look v.toInt))) 1
    return .number product
  | .expression =>
    let total ← (image.program.arena.children n).foldlM (fun total j => do
      let v ← operand j
      let member ← look (image.program.node j)
      require (member.tag.sign.apply total (← look v.toInt))) 0
    return .number total
  | .predicate =>
    let a ← operand (← look (reference n.lhs))
    let b ← operand (← look (reference n.rhs))
    let operator ← look (reference n.token >>= image.program.token)
    return .number (truth (← look (operator.tag.relation.relates a b)))
  | .call =>
    let function ← look (reference n.token >>= image.program.token)
    let arguments ← (image.program.arena.children n).mapM argument
    return .number (← applyFunction function.tag arguments)
  | .print =>
    let items ← (image.program.arena.children n).mapM (image.itemText item)
    onConsole (Console.print (" ".intercalate items ++ "\n"))
    return .nothing
  | .input =>
    (image.program.arena.children n).forM image.inputVariable
    return .nothing
  | .assign =>
    let v ← operand (← look (reference n.rhs))
    assign (← look (reference n.token >>= image.program.letter)) v
    return .nothing
  | .branch =>
    let condition ← operand (← look (reference n.lhs))
    if condition ≠ .number 0 then
      let _ ← operand (← look (reference n.rhs))
    return .nothing
  | .goto =>
    image.jump (← operand (← look (reference n.lhs)))
    return .nothing
  | .gosub =>
    save
    image.jump (← operand (← look (reference n.lhs)))
    return .nothing
  | .action .ret =>
    restore
    return .nothing
  | .action .halt =>
    goTo endPosition
    return .nothing
  | .action .clear | .action .list | .action .run | .root | .string => stop .notImplemented

/-- Evaluates a node within a number of frames. The evaluation of a node takes one frame, and the nodes that it
names are evaluated in those that are left. PRINT takes one more for its items and a function two more for its
arguments. -/
def evaluate (image : Image) : (frames : Nat) → NodeId → Execution Value
  | 0, _ => throw (.aborted (.fault .tooDeep))
  | 1, i => image.evaluateWith (image.evaluate 0) (image.evaluate 0) (image.evaluate 0) i
  | 2, i => image.evaluateWith (image.evaluate 1) (image.evaluate 0) (image.evaluate 0) i
  | frames + 3, i =>
    image.evaluateWith (image.evaluate (frames + 2)) (image.evaluate (frames + 1)) (image.evaluate frames) i

/-- The frames in which the parts of a node are evaluated. -/
theorem evaluate_succ (image : Image) (frames : Nat) (i : NodeId) :
    image.evaluate (frames + 1) i =
      image.evaluateWith (image.evaluate frames) (image.evaluate (frames - 1)) (image.evaluate (frames - 2)) i :=
  match frames with
  | 0 => rfl
  | 1 => rfl
  | _ + 2 => rfl

end Image

end LineBasic

import LineBasic.Proofs.Program.Meaning
import LineBasic.Session

/-!
# A machine for plain trees

A machine that runs the plain lines of a program by recursion on their trees. It knows neither tokens nor nodes,
and its variables hold numbers that fit into sixteen bits and nothing else. The only thing that it takes from the
parsed program is the token on which the errors of a line are blamed.

## Main definitions

* `Word`: the numbers that fit into sixteen bits, with the operations on them.
* `Machine`, `Run`: the states of the machine, and computations on them.
* `Expr.value`, `Stmt.exec`: the value of an expression and the effect of a statement.
* `Machine.step`, `Machine.RunsTo`, `Machine.Plays`: one line, a run to its end, and a session.
-/

namespace LineBasic

/-- A number that fits into sixteen bits. -/
abbrev Word := { n : Int // InRange n }

theorem InRange.tmod {a : Int} (ha : InRange a) (b : Int) : InRange (a.tmod b) := by
  obtain ⟨hlo, hhi⟩ := ha
  have hle : (a.tmod b).natAbs ≤ a.natAbs := by
    rw [Int.natAbs_tmod]
    exact Nat.mod_le _ _
  have hneg : a < 0 → a.tmod b ≤ 0 := fun h => by
    rw [← Int.neg_neg a, Int.neg_tmod]
    exact Int.neg_nonpos_of_nonneg (Int.tmod_nonneg b (by omega))
  have hpos : 0 ≤ a → 0 ≤ a.tmod b := fun h => Int.tmod_nonneg b h
  constructor <;> omega

theorem InRange.ofNumeral (n : Numeral) : InRange n.val := by
  have hn : n.val < 32768 := n.isLt
  constructor <;> omega

namespace Word

/-- A numeral. -/
def ofNumeral (n : Numeral) : Word := ⟨n.val, .ofNumeral n⟩

/-- A number as a value of a variable. -/
def toValue (w : Word) : Value := .number w.val

/-- A result, provided that it fits. -/
def checked (n : Int) : Except Reason Word :=
  if h : InRange n then .ok ⟨n, h⟩ else .error .mathOverflow

/-- What a quotient leaves of the dividend. -/
def remainder (a b : Word) : Except Reason Word :=
  if b.val = 0 then .error .divisionByZero else .ok ⟨a.val.tmod b.val, a.property.tmod b.val⟩

/-- A product or a quotient, which is cut off towards zero. -/
def scale : Scale → Word → Word → Except Reason Word
  | .times, a, b => checked (a.val * b.val)
  | .over, a, b => if b.val = 0 then .error .divisionByZero else checked (a.val.tdiv b.val)

/-- A sum or a difference. -/
def add : Sign → Word → Word → Except Reason Word
  | .plus, a, b => checked (a.val + b.val)
  | .minus, a, b => checked (a.val - b.val)

end Word

/-- The state of the machine. -/
structure Machine where
  store : Vector Word letterCount
  stack : List Nat
  position : Nat
  errors : List RuntimeError
  console : Console
  generator : Generator

/-- Computations of the machine. What they changed before they halted stays changed. -/
abbrev Run := ExceptT Halt (StateM Machine)

/-- Sequences of computations that keep their state when they halt. -/
theorem bind_apply {ε σ α β : Type} (x : ExceptT ε (StateM σ) α) (f : α → ExceptT ε (StateM σ) β) (s : σ) :
    (x >>= f) s = match x s with
      | (.ok a, s') => f a s'
      | (.error e, s') => (.error e, s') := by
  show ExceptT.bindCont f (x s).1 (x s).2 = _
  rcases x s with ⟨e | a, s'⟩
  · rfl
  · rfl

theorem Console.inRange_of_readNumber {c c' : Console} {n : Int} (h : c.readNumber = (.ok n, c')) :
    InRange n := by
  fun_induction Console.readNumber c with
  | case1 => simp at h
  | case2 => simp at h
  | case3 => simp at h
  | case4 c u asked hw ch cs hin answer answered hlen n' hparse =>
    simp only [Prod.mk.injEq, Except.ok.injEq] at h
    obtain ⟨rfl, -⟩ := h
    simpa [parseAnswer] using (Option.filter_eq_some_iff.1 hparse).2
  | case5 c u asked hw ch cs hin answer answered hlen hparse ih => exact ih h

theorem inRange_of_below {limit : Word} {g g' : Generator} {n : Nat}
    (h : g.below (max 1 limit.val).toNat = (some n, g')) : InRange ((n : Int) + 1) := by
  have hlt := Generator.drawBelow_lt h
  obtain ⟨-, hhi⟩ := limit.property
  constructor <;> omega

namespace Run

variable {α : Type}

/-- Stops the statement. -/
def stop (r : Reason) : Run α := throw (.stopped r)

/-- A result that may be out of reach. -/
def require : Except Reason α → Run α
  | .ok a => pure a
  | .error r => stop r

/-- A random number from one up to a limit, which is one if it is not positive. -/
def random (limit : Word) : Run Word := fun m =>
  match h : m.generator.below (max 1 limit.val).toNat with
  | (some n, g) => (.ok ⟨(n : Int) + 1, inRange_of_below h⟩, { m with generator := g })
  | (none, g) => (.error (.aborted (.fault .noDraw)), { m with generator := g })

/-- Writes a line. -/
def put (text : String) : Run Unit := fun m =>
  let (r, c) := m.console.print text
  (r, { m with console := c })

/-- Asks for a number. -/
def ask : Run Word := fun m =>
  match h : m.console.readNumber with
  | (.ok n, c) => (.ok ⟨n, Console.inRange_of_readNumber h⟩, { m with console := c })
  | (.error e, c) => (.error e, { m with console := c })

/-- The value of a variable. -/
def load (v : Letter) : Run Word := do
  return (← get).store.get v

/-- Sets a variable. -/
def update (v : Letter) (w : Word) : Run Unit :=
  modify fun m => { m with store := m.store.set v w v.isLt }

/-- Goes to a position in the program. -/
def goTo (position : Nat) : Run Unit :=
  modify fun m => { m with position := position }

/-- Saves the present position. -/
def save : Run Unit := do
  if (← get).stack.length = maxStack then
    stop .tooManyGosubs
  else
    modify fun m => { m with stack := m.position :: m.stack }

/-- Goes back to the position that was saved last. -/
def restore : Run Unit := do
  match (← get).stack with
  | [] => stop .returnWithoutGosub
  | position :: stack => modify fun m => { m with stack := stack, position := position }

/-- Goes where a table of line numbers leads. -/
def jump (table : Int → Option Nat) (n : Word) : Run Unit :=
  match table n.val with
  | some position => goTo position
  | none => stop (.missingLine (.number n.val))

end Run

open Run

/-- The value of an expression. Operands come before operators, from left to right. -/
def Expr.value : {l : Level} → PlainExpr l → Run Word
  | _, .var v => load v
  | _, .number n => return .ofNumeral n
  | _, .group e => e.value
  | _, .abs _ e => do require (Word.checked (← e.value).val.natAbs)
  | _, .rnd _ e => do random (← e.value)
  | _, .mod _ e₁ e₂ => do require (Word.remainder (← e₁.value) (← e₂.value))
  | _, .factor a => a.value
  | _, .scale p o a => do require (Word.scale o (← p.value) (← a.value))
  | _, .signed .plus p => p.value
  | _, .signed .minus p => do require (Word.checked (-(← p.value).val))
  | _, .add e s p => do require (Word.add s (← e.value) (← p.value))

/-- What PRINT writes for an item. -/
def Item.printed : PlainItem → Run String
  | .text s => return String.ofList s.val
  | .value e => return toString (← e.value).val

/-- Whether a relation holds between the values of two expressions. -/
def Comparison.test (r : Comparison) (e₁ e₂ : PlainExpr .sum) : Run Bool :=
  return r.holds (← e₁.value).val (← e₂.value).val

/-- The effect of a statement, given where line numbers lead. -/
def Stmt.exec (table : Int → Option Nat) : PlainStmt → Run Unit
  | .print _ item more => do
    let texts ← (item :: more).mapM Item.printed
    put (" ".intercalate texts ++ "\n")
  | .input _ v more => (v :: more).forM fun v => do update v (← ask)
  | .assign v e => do update v (← e.value)
  | .branch _ e₁ r _ e₂ body => do if ← r.test e₁ e₂ then body.exec table
  | .goto _ e => do jump table (← e.value)
  | .gosub _ e => do
    save
    jump table (← e.value)
  | .action _ .ret => restore
  | .action _ .halt => goTo endPosition
  | .action _ .clear | .action _ .list | .action _ .run => stop .notImplemented

/-- The position of the last line that has a number. -/
def lastNumbered (wanted : Int) : List Clause → Option Nat
  | [] => none
  | c :: cs =>
    match lastNumbered wanted cs with
    | some i => some (i + 1)
    | none => if ∃ n ∈ c.line.number, (n.val : Int) = wanted then some 0 else none

namespace Machine

/-- The machine before its first step. -/
def initial (console : Console) (seed : Int) : Machine :=
  ⟨Vector.replicate letterCount ⟨0, by decide⟩, [], 0, [], console, .ofSeed seed⟩

/-- The machine with nothing put out. -/
def cleared (m : Machine) : Machine := { m with console := m.console.cleared }

/-- What can be seen of the machine. -/
def toState (m : Machine) : State :=
  ⟨m.store.map Word.toValue, m.stack, m.position, m.errors, m.console, m.generator⟩

@[simp] theorem toState_stack (m : Machine) : m.toState.stack = m.stack := rfl

@[simp] theorem toState_console (m : Machine) : m.toState.console = m.console := rfl

@[simp] theorem toState_generator (m : Machine) : m.toState.generator = m.generator := rfl

theorem toState_initial (console : Console) (seed : Int) :
    (initial console seed).toState = State.initial console seed := by
  simp only [State.initial, initial, toState, Vector.map_replicate]
  rfl

variable (clauses : List Clause)

/-- Runs the line at the present position. -/
def step (m : Machine) : Outcome × Machine :=
  match clauses[m.position]? with
  | none => (.finished, m)
  | some c =>
    match c.line.body.exec (lastNumbered · clauses) { m with position := m.position + 1 } with
    | (.ok _, m) => (.more, m)
    | (.error (.stopped r), m) => (.failed ⟨r, c.token⟩, { m with errors := m.errors ++ [⟨r, c.token⟩] })
    | (.error (.aborted a), m) => (.aborted a, m)

/-- Runs up to `limit` lines, as long as they succeed, after `done` others. -/
def stepsFrom (done : Nat) : (limit : Nat) → Machine → Nat × Outcome × Machine
  | 0, m => (done, .more, m)
  | limit + 1, m =>
    match m.step clauses with
    | (.more, m) => stepsFrom (done + 1) limit m
    | (outcome, m) => (done, outcome, m)

/-- Runs lines until there is none left or one fails. -/
inductive RunsTo : Machine → Outcome → Machine → Prop
  | done {m m' : Machine} {o : Outcome} (h : m.step clauses = (o, m')) (ho : o ≠ .more) : RunsTo m o m'
  | more {m m' m'' : Machine} {o : Outcome} (h : m.step clauses = (.more, m')) (hrun : RunsTo m' o m'') :
      RunsTo m o m''

/-- What a single step reports. -/
def stepReport : Outcome → Session.Report
  | .failed _ => .silent
  | o => .stepped (o = .more)

/-- An operation of a session with its report, the outcome of its last step and the machine behind it. -/
inductive Performs : Machine → Session.Op → Session.Report → Outcome → Machine → Prop
  | step {m m' : Machine} {o : Outcome} (h : m.cleared.step clauses = (o, m')) :
      Performs m .step (stepReport o) o m'
  | steps {m m' : Machine} {n done : Nat} {o : Outcome} (h : m.cleared.stepsFrom clauses 0 n = (done, o, m')) :
      Performs m (.steps n) (.counted done) o m'
  | run {m m' : Machine} {o : Outcome} (h : m.cleared.RunsTo clauses o m') : Performs m .run .silent o m'
  | feed (m : Machine) (text : List Char) :
      Performs m (.feed text) .silent .finished { m.cleared with console := m.cleared.console.feed text }
  | table (m : Machine) : Performs m .table (.shown m.toState.table) .finished m.cleared

end Machine

/-- The error that an outcome stands for, if any. -/
def Outcome.error? : Outcome → Except Abort (Option RuntimeError)
  | .more | .finished => .ok none
  | .failed e => .ok (some e)
  | .aborted a => .error a

/-- A session and the replies to its operations. It ends at an operation that aborts. -/
inductive Machine.Plays (clauses : List Clause) :
    Machine → List Session.Op → Except Abort (List Session.Reply) → Prop
  | nil (m : Machine) : Plays clauses m [] (.ok [])
  | abort {m m' : Machine} {op : Session.Op} {ops : List Session.Op} {r : Session.Report} {o : Outcome}
      {a : Abort} (h : m.Performs clauses op r o m') (ho : o.error? = .error a) :
      Plays clauses m (op :: ops) (.error a)
  | cons {m m' : Machine} {op : Session.Op} {ops : List Session.Op} {r : Session.Report} {o : Outcome}
      {e : Option RuntimeError} {replies : Except Abort (List Session.Reply)}
      (h : m.Performs clauses op r o m') (ho : o.error? = .ok e) (hops : Plays clauses m' ops replies) :
      Plays clauses m (op :: ops) (replies.map (⟨r, e, m'.toState⟩ :: ·))

end LineBasic

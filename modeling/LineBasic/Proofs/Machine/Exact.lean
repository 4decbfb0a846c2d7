import LineBasic.Proofs.Machine.Frame
import LineBasic.Proofs.Machine.Twister
import LineBasic.Proofs.Program.Parts

/-!
# Checked arithmetic and exact arithmetic

Beside the machine, which checks each result, expressions are evaluated exactly, in numbers of any size. What is met
on the way is written down: divisors, results and draws. The machine yields the exact value if nothing is wrong with
all of it, and stops at the first event with which something is wrong, with nothing drawn behind it.

## Main definitions

* `Event`: what is met in an exact evaluation; `Event.fault?` is what may be wrong with it.
* `Exact`: exact computations.
* `Expr.exact`: the exact evaluation of an expression.
* `Event.outcome`: a machine that goes along some events up to the first with which something is wrong.

## Main results

* `Event.outcome_eq_ok_iff`, `Event.outcome_eq_error_iff`: how it ends.
* `Expr.tracks_value`: the machine goes along the events of the exact evaluation.
* `Program.evaluate_exact`: the expressions of parsed programs.
-/

namespace LineBasic

/-! ### Exact evaluation -/

/-- What is met in the exact evaluation of an expression. -/
inductive Event where
  /-- The divisor of a division, or of MOD. -/
  | divisor (n : Int)
  /-- A partial product, a quotient, a partial sum or a value of ABS. -/
  | result (n : Int)
  /-- A draw below a limit, and the number that is drawn. -/
  | draw (limit drawn : Nat)
  deriving DecidableEq, Repr

namespace Event

/-- What is wrong with an event: a divisor may be zero, and a result may not fit into sixteen bits. -/
def fault? : Event → Option Reason
  | divisor n => if n = 0 then some .divisionByZero else none
  | result n => if InRange n then none else some .mathOverflow
  | draw _ _ => none

theorem fault?_divisor {n : Int} (hn : n ≠ 0) : (divisor n).fault? = none := if_neg hn

theorem fault?_divisor_zero : (divisor 0).fault? = some .divisionByZero := rfl

theorem fault?_result {n : Int} (hn : InRange n) : (result n).fault? = none := if_pos hn

theorem fault?_result_of_not {n : Int} (hn : ¬InRange n) : (result n).fault? = some .mathOverflow := if_neg hn

/-- The generator behind an event, which is another one behind a draw. -/
def advance (g : Generator) : Event → Generator
  | draw limit _ => (g.below limit).2
  | _ => g

/-- The generator behind some events. -/
def after (events : List Event) (g : Generator) : Generator := events.foldl advance g

end Event

/-- An exact computation, which may draw from a generator: its value, and the events in their order. -/
abbrev Exact := Generator → Int × List Event

namespace Exact

/-- A number that is there already. -/
def known (n : Int) : Exact := fun _ => (n, [])

/-- A result. -/
def result (n : Int) : Exact := fun _ => (n, [.result n])

/-- A random number from one up to a limit. -/
def draw (limit : Nat) (hlimit : 0 < limit) : Exact := fun g =>
  (g.drawn limit hlimit + 1, [.draw limit (g.drawn limit hlimit)])

/-- One computation behind another. -/
def bind (x : Exact) (f : Int → Exact) : Exact := fun g =>
  let (n, events) := x g
  let (k, later) := f n (Event.after events g)
  (k, events ++ later)

end Exact

/-- A product, or a quotient that is cut off towards zero. -/
def Scale.exact : Scale → Int → Int → Exact
  | .times, a, b => .result (a * b)
  | .over, a, b => fun _ => (a.tdiv b, [.divisor b, .result (a.tdiv b)])

/-- A sum or a difference. -/
def Sign.exact : Sign → Int → Int → Exact
  | .plus, a, b => .result (a + b)
  | .minus, a, b => .result (a - b)

/-- The exact evaluation of an expression, given the values of the variables. A product starts from one, a sum from
zero, and a remainder has the sign of the dividend. -/
def Expr.exact (store : Letter → Int) : {l : Level} → PlainExpr l → Exact
  | _, .var v => .known (store v)
  | _, .number n => .known n.val
  | _, .group e => e.exact store
  | _, .abs _ e => (e.exact store).bind fun n => .result n.natAbs
  | _, .rnd _ e => (e.exact store).bind fun n => .draw (max 1 n).toNat (by omega)
  | _, .mod _ e₁ e₂ => (e₁.exact store).bind fun a => (e₂.exact store).bind fun b => fun _ => (a.tmod b, [.divisor b])
  | _, .factor a => (a.exact store).bind fun n => Scale.times.exact 1 n
  | _, .scale p o a => (p.exact store).bind fun n => (a.exact store).bind fun k => o.exact n k
  | _, .signed s p => (p.exact store).bind fun n => s.exact 0 n
  | _, .add e s p => (e.exact store).bind fun n => (p.exact store).bind fun k => s.exact n k

/-! ### Going along events -/

/-- The machine behind some events. -/
def Machine.behind (events : List Event) (m : Machine) : Machine :=
  { m with generator := Event.after events m.generator }

namespace Event

/-- The machine goes along events up to the first with which something is wrong, and stops there. At the end it yields
a value. -/
def outcome (value : Int) : List Event → Machine → Except Halt Int × Machine
  | [], m => (.ok value, m)
  | e :: events, m =>
    match e.fault? with
    | none => outcome value events (m.behind [e])
    | some r => (.error (.stopped r), m)

variable {value n : Int} {e : Event} {events later : List Event} {m m' : Machine} {h : Halt} {r : Reason}

theorem outcome_cons_of_eq_none (he : e.fault? = none) :
    outcome value (e :: events) m = outcome value events (m.behind [e]) := by
  rw [outcome, he]

theorem outcome_cons_of_eq_some (he : e.fault? = some r) :
    outcome value (e :: events) m = (.error (.stopped r), m) := by
  rw [outcome, he]

theorem outcome_eq_ok_iff : outcome value events m = (.ok n, m') ↔
    (∀ e ∈ events, e.fault? = none) ∧ n = value ∧ m' = m.behind events := by
  induction events generalizing m with
  | nil => simp [outcome, Machine.behind, after, eq_comm]
  | cons e events ih =>
    cases he : e.fault? with
    | none =>
      rw [outcome_cons_of_eq_none he, ih, List.forall_mem_cons]
      exact ⟨fun ⟨hevents, hn⟩ => ⟨⟨he, hevents⟩, hn⟩, fun ⟨⟨_, hevents⟩, hn⟩ => ⟨hevents, hn⟩⟩
    | some r =>
      rw [outcome_cons_of_eq_some he]
      constructor
      · intro h
        cases h
      · rintro ⟨hevents, -⟩
        cases he.symm.trans (hevents e List.mem_cons_self)

theorem outcome_eq_error_iff : outcome value events m = (.error h, m') ↔
    ∃ front e rest r, events = front ++ e :: rest ∧ (∀ e' ∈ front, e'.fault? = none) ∧ e.fault? = some r ∧
      h = .stopped r ∧ m' = m.behind front := by
  induction events generalizing m with
  | nil => simp [outcome]
  | cons e events ih =>
    cases he : e.fault? with
    | none =>
      rw [outcome_cons_of_eq_none he, ih]
      constructor
      · rintro ⟨front, e', rest, r, rfl, hfront, he', hh, hm⟩
        exact ⟨e :: front, e', rest, r, rfl, List.forall_mem_cons.2 ⟨he, hfront⟩, he', hh, hm⟩
      · rintro ⟨_ | ⟨e₁, front⟩, e', rest, r, hevents, hfront, he', hh, hm⟩
        · cases hevents
          cases he.symm.trans he'
        · cases hevents
          exact ⟨front, e', rest, r, rfl, (List.forall_mem_cons.1 hfront).2, he', hh, hm⟩
    | some r =>
      rw [outcome_cons_of_eq_some he]
      constructor
      · intro h
        cases h
        exact ⟨[], e, events, r, rfl, List.forall_mem_nil _, he, rfl, rfl⟩
      · rintro ⟨_ | ⟨e₁, front⟩, e', rest, r', hevents, hfront, he', rfl, rfl⟩
        · cases hevents
          cases he.symm.trans he'
          rfl
        · cases hevents
          cases he.symm.trans (List.forall_mem_cons.1 hfront).1

/-- Events behind others. -/
theorem outcome_append (k : Int) : outcome value (events ++ later) m =
    match outcome k events m with
    | (.ok _, m') => outcome value later m'
    | (.error h, m') => (.error h, m') := by
  induction events generalizing m with
  | nil => rfl
  | cons e events ih =>
    rw [List.cons_append, outcome, outcome]
    split
    · exact ih
    · rfl

end Event

/-! ### The machine goes along -/

/-- The values of the variables. -/
def Machine.values (m : Machine) (v : Letter) : Int := (m.store.get v).val

/-- The computation goes along the events of the exact computation, and yields its value, wherever the variables have
some values. -/
def Run.Tracks (store : Letter → Int) (y : Run Word) (x : Exact) : Prop :=
  ∀ m : Machine, m.values = store →
    ((y m).1.map Subtype.val, (y m).2) = Event.outcome (x m.generator).1 (x m.generator).2 m

namespace Run.Tracks

variable {store : Letter → Int} {y : Run Word} {x : Exact}

theorem pure (w : Word) : Tracks store (Pure.pure w) (.known w.val) := fun _ _ => rfl

theorem bind {f : Word → Run Word} {x' : Int → Exact} (h : Tracks store y x)
    (h' : ∀ w : Word, Tracks store (f w) (x' w.val)) : Tracks store (y >>= f) (x.bind x') := by
  intro m hm
  have hx := h m hm
  rw [Exact.bind]
  dsimp only
  rw [bind_apply, Event.outcome_append (x m.generator).1, ← hx]
  rcases hy : y m with ⟨e | w, m'⟩
  · rfl
  · rw [hy] at hx
    obtain ⟨-, hw, rfl⟩ := Event.outcome_eq_ok_iff.1 hx.symm
    rw [← hw]
    exact h' w _ hm

/-- A divisor that is not zero is passed. -/
theorem divisor {b value : Int} {events : List Event} (hb : b ≠ 0) (h : Tracks store y fun _ => (value, events)) :
    Tracks store y fun _ => (value, .divisor b :: events) := by
  intro m hm
  show _ = Event.outcome value (.divisor b :: events) m
  rw [Event.outcome_cons_of_eq_none (Event.fault?_divisor hb)]
  exact h m hm

theorem stop_divisor (value : Int) (events : List Event) :
    Tracks store (Run.stop .divisionByZero) fun _ => (value, .divisor 0 :: events) := by
  intro m _
  show _ = Event.outcome value (.divisor 0 :: events) m
  rw [Event.outcome_cons_of_eq_some Event.fault?_divisor_zero]
  rfl

theorem checked (n : Int) : Tracks store (Run.require (Word.checked n)) (.result n) := by
  intro m _
  show _ = Event.outcome n [.result n] m
  rw [Word.checked]
  by_cases hn : InRange n
  · rw [dif_pos hn, Event.outcome_cons_of_eq_none (Event.fault?_result hn)]
    rfl
  · rw [dif_neg hn, Event.outcome_cons_of_eq_some (Event.fault?_result_of_not hn)]
    rfl

/-- A result that fits already. -/
theorem same (w : Word) {n : Int} (hn : n = w.val) : Tracks store (Pure.pure w) (.result n) := by
  subst hn
  have hw : Word.checked w.val = .ok w := dif_pos w.property
  have hchecked : Tracks store (Run.require (Word.checked w.val)) (.result w.val) := checked w.val
  rwa [hw] at hchecked

theorem scale (o : Scale) (a b : Word) : Tracks store (Run.require (Word.scale o a b)) (o.exact a.val b.val) := by
  cases o with
  | times => exact checked _
  | «over» =>
    rw [Word.scale, Scale.exact]
    by_cases hb : b.val = 0
    · rw [if_pos hb, hb]
      exact stop_divisor _ _
    · rw [if_neg hb]
      exact divisor hb (checked _)

theorem add (s : Sign) (a b : Word) : Tracks store (Run.require (Word.add s a b)) (s.exact a.val b.val) := by
  cases s with
  | plus => exact checked _
  | minus => exact checked _

theorem remainder (a b : Word) : Tracks store (Run.require (Word.remainder a b))
    fun _ => (a.val.tmod b.val, [.divisor b.val]) := by
  rw [Word.remainder]
  by_cases hb : b.val = 0
  · rw [if_pos hb, hb]
    exact stop_divisor _ _
  · rw [if_neg hb]
    exact divisor hb (pure _)

theorem random (limit : Word) (hlimit : 0 < (max 1 limit.val).toNat) :
    Tracks store (Run.random limit) (.draw (max 1 limit.val).toNat hlimit) := by
  intro m _
  have hbelow := m.generator.below_eq hlimit
  rw [Run.random]
  split
  · rename_i n g hdraw
    obtain ⟨hn, rfl⟩ := Prod.mk.inj (hdraw.symm.trans hbelow)
    obtain rfl := Option.some.inj hn
    rfl
  · rename_i g hdraw
    cases (hdraw.symm.trans hbelow)

end Run.Tracks

/-- The evaluation of an expression goes along the events of the exact evaluation. -/
theorem Expr.tracks_value (store : Letter → Int) {l : Level} (e : PlainExpr l) :
    Run.Tracks store e.value (e.exact store) := by
  induction e with
  | var v =>
    intro m hm
    subst hm
    rfl
  | number n => exact .pure (.ofNumeral n)
  | group e ih => exact ih
  | abs _ e ih => exact ih.bind fun w => .checked _
  | rnd _ e ih => exact ih.bind fun w => .random w _
  | mod _ e₁ e₂ ih₁ ih₂ => exact ih₁.bind fun w₁ => ih₂.bind fun w₂ => .remainder w₁ w₂
  | factor a ih =>
    -- The first factor is taken as it is, and one times it is the same.
    rw [value, ← bind_pure a.value]
    exact ih.bind fun w => .same w (Int.one_mul _)
  | scale p o a ihp iha => exact ihp.bind fun w₁ => iha.bind fun w₂ => .scale o w₁ w₂
  | signed s p ih =>
    cases s with
    | plus =>
      rw [value, ← bind_pure p.value]
      exact ih.bind fun w => .same w (Int.zero_add _)
    | minus =>
      refine ih.bind fun w => ?_
      rw [← Int.zero_sub]
      exact .checked _
  | add e s p ihe ihp => exact ihe.bind fun w₁ => ihp.bind fun w₂ => .add s w₁ w₂

/-! ### Parsed programs -/

/-- The evaluation of the node of an expression goes along the events of the exact evaluation. -/
theorem Expr.WholeIn.evaluate_eq {image : Image} {e : PlainExpr .sum} {i : NodeId} {frames : Nat}
    (h : e.WholeIn image.program.lexemes image.program.arena i) (hframes : 6 * e.nesting ≤ frames) (m : Machine) :
    image.evaluate frames i m.toState =
      let (n, events) := e.exact m.values m.generator
      ((Event.outcome n events m).1.map Value.number, (Event.outcome n events m).2.toState) := by
  have htracks := e.tracks_value m.values m rfl
  dsimp only
  rw [h.mirrors hframes m, ← htracks]
  rcases e.value m with ⟨halt | w, m'⟩
  · rfl
  · rfl

/-- What can be seen of a machine that has ended with a number. -/
theorem seen_eq_ok_iff {x : Except Halt Int × Machine} {v : Value} {s : State} :
    (x.1.map Value.number, x.2.toState) = (.ok v, s) ↔ ∃ k m, x = (.ok k, m) ∧ v = .number k ∧ s = m.toState := by
  rcases x with ⟨h | k, m⟩ <;> simp [Except.map, eq_comm]

@[inherit_doc seen_eq_ok_iff]
theorem seen_eq_error_iff {x : Except Halt Int × Machine} {h : Halt} {s : State} :
    (x.1.map Value.number, x.2.toState) = (.error h, s) ↔ ∃ m, x = (.error h, m) ∧ s = m.toState := by
  rcases x with ⟨h' | k, m⟩ <;> simp [Except.map, eq_comm]

/-- In a parsed program, at the node of each expression, evaluation agrees with exact evaluation, whatever the
variables, the generator and the rest of the state are. It yields a value exactly if nothing is wrong with all that is
met, and then the exact value. Otherwise it stops at the first event with which something is wrong, for the reason that
this one gives. Nothing but the generator is changed, and that only by the draws that are met up to there. -/
theorem Program.evaluate_exact {source : List Char} {p : Program} (hp : Program.parse source = .ok p) :
    ∃ image, Image.ofProgram p = .ok image ∧ ∀ (i : NodeId) (n : Node), p.arena.nodes[i]? = some n →
      n.tag = .expression → ∃ e : PlainExpr .sum, e.WholeIn p.lexemes p.arena i ∧
        ∀ (frames : Nat) (m : Machine) (value : Int) (events : List Event), 6 * Grammar.maxNesting ≤ frames →
          e.exact m.values m.generator = (value, events) →
            (∀ v s, image.evaluate frames i m.toState = (.ok v, s) ↔
              (∀ x ∈ events, x.fault? = none) ∧ v = .number value ∧ s = (m.behind events).toState) ∧
            ∀ h s, image.evaluate frames i m.toState = (.error h, s) ↔
              ∃ front x rest r, events = front ++ x :: rest ∧ (∀ y ∈ front, y.fault? = none) ∧ x.fault? = some r ∧
                h = .stopped r ∧ s = (m.behind front).toState := by
  obtain ⟨clauses, image, hclauses, himage, rfl, -⟩ := Program.exists_image_of_parse hp
  refine ⟨image, himage, fun i n hn htag => ?_⟩
  have hpart := hclauses.part hn (by rw [htag]; nofun)
  obtain ⟨e, he, hnesting⟩ := (hpart.of_tag hn).1 htag
  refine ⟨e, he, fun frames m value events hframes hexact => ?_⟩
  -- No program is nested more deeply than the grammar allows, so the frames do.
  have hevaluate := he.evaluate_eq (Nat.le_trans (Nat.mul_le_mul_left 6 hnesting) hframes) m
  rw [hexact] at hevaluate
  dsimp only at hevaluate
  rw [hevaluate]
  constructor
  · intro v s
    rw [seen_eq_ok_iff]
    constructor
    · rintro ⟨k, m', houtcome, rfl, rfl⟩
      obtain ⟨hevents, rfl, rfl⟩ := Event.outcome_eq_ok_iff.1 houtcome
      exact ⟨hevents, rfl, rfl⟩
    · rintro ⟨hevents, rfl, rfl⟩
      exact ⟨value, _, Event.outcome_eq_ok_iff.2 ⟨hevents, rfl, rfl⟩, rfl, rfl⟩
  · intro h s
    rw [seen_eq_error_iff]
    constructor
    · rintro ⟨m', houtcome, rfl⟩
      obtain ⟨front, x, rest, r, hevents, hfront, hx, hh, rfl⟩ := Event.outcome_eq_error_iff.1 houtcome
      exact ⟨front, x, rest, r, hevents, hfront, hx, hh, rfl⟩
    · rintro ⟨front, x, rest, r, hevents, hfront, hx, hh, rfl⟩
      exact ⟨_, Event.outcome_eq_error_iff.2 ⟨front, x, rest, r, hevents, hfront, hx, hh, rfl⟩, rfl⟩

/-- The first product is too large. What comes behind it, a division by zero and a draw, is not met. -/
def Program.excess : List Char := "PRINT 200*200/0+RND(6)\n".toList

theorem Program.evaluate_exact_excess : ∃ p image n, ∃ e : PlainExpr .sum, Program.parse excess = .ok p ∧
    Image.ofProgram p = .ok image ∧ p.arena.nodes[15]? = some n ∧ n.tag = .expression ∧
    e.WholeIn p.lexemes p.arena 15 ∧ 6 * Grammar.maxNesting ≤ 384 ∧
    let m := Machine.initial (.ofInput []) 0
    (image.evaluate 384 15 m.toState).1 = .error (.stopped .mathOverflow) ∧
      ∃ front x rest, (e.exact m.values m.generator).2 = front ++ x :: rest ∧ (∀ y ∈ front, y.fault? = none) ∧
        x.fault? = some .mathOverflow := by
  have hrun : (Program.parse excess).toOption.any (fun p => (Image.ofProgram p).toOption.any fun image =>
      decide ((p.arena.nodes[15]?).map Node.tag = some .expression) &&
        match image.evaluate 384 15 (State.initial (.ofInput []) 0) with
        | (.error (.stopped .mathOverflow), _) => true
        | _ => false) = true := by decide +kernel
  obtain ⟨p, hp, hrun⟩ := exists_ok_of_any hrun
  obtain ⟨image, himage, hrun⟩ := exists_ok_of_any hrun
  obtain ⟨htag, hrun⟩ := Bool.and_eq_true_iff.1 hrun
  obtain ⟨n, hn, htag⟩ := Option.map_eq_some_iff.1 (of_decide_eq_true htag)
  obtain ⟨image', himage', hexact⟩ := Program.evaluate_exact hp
  obtain rfl := Except.ok.inj (himage.symm.trans himage')
  obtain ⟨e, he, hevaluate⟩ := hexact 15 n hn htag
  refine ⟨p, image, n, e, hp, himage, hn, htag, he, by decide, ?_⟩
  have herror := (hevaluate 384 (Machine.initial (.ofInput []) 0) _ _ (by decide) rfl).2
  dsimp only
  rw [Machine.toState_initial] at herror ⊢
  split at hrun
  · rename_i s hs
    obtain ⟨front, x, rest, r, hevents, hfront, hx, hreason, -⟩ := (herror _ s).1 hs
    cases hreason
    exact ⟨congrArg Prod.fst hs, front, x, rest, hevents, hfront, hx⟩
  · cases hrun

end LineBasic

import LineBasic.Proofs.Machine.Alike
import LineBasic.Proofs.Machine.Refinement

/-!
# What the seed is for

The seed of a session shows in the numbers that RND draws and nowhere else. Two sessions with different seeds are the
same up to the first operation that evaluates a call of RND, and that operation is the same one in both. Without RND
in the program there is none.

## Main definitions

* `Image.watch`: the evaluation of a node, which breaks off in front of calls of RND.
* `Image.stepCallsRandom`, `Session.callsRandom`: whether a step or an operation evaluates a call of RND.
* `Session.firstRandom`: the first operation that does.
* `State.unseeded`: what can be seen of a state.
* `Session.LookAlike`: sessions that cannot be told apart.

## Main results

* `Image.step_unseeded`: a step that calls for no random number does the same with every generator.
* `Session.firstRandom_eq`: the first operation that calls for one is the same with every seed.
* `Program.seed_irrelevant`: sessions with different seeds.
-/

namespace LineBasic

open Execution

/-! ### Calls of RND -/

namespace Image

/-- Breaks off in front of a node that calls for a random number. -/
def unlessRandom (image : Image) (f : Fault) (evaluate : NodeId → Execution Value) (i : NodeId) : Execution Value :=
  if image.isRandom i then throw (.aborted (.fault f)) else evaluate i

/-- Evaluates a node as `Image.evaluate` does, but breaks off with a fault in front of the first node that calls for a
random number. -/
def watch (image : Image) (f : Fault) : (frames : Nat) → NodeId → Execution Value
  | 0, _ => throw (.aborted (.fault .tooDeep))
  | 1, i =>
    image.unlessRandom f (image.evaluateWith (image.watch f 0) (image.watch f 0) (image.watch f 0)) i
  | 2, i =>
    image.unlessRandom f (image.evaluateWith (image.watch f 1) (image.watch f 0) (image.watch f 0)) i
  | frames + 3, i =>
    image.unlessRandom f
      (image.evaluateWith (image.watch f (frames + 2)) (image.watch f (frames + 1)) (image.watch f frames)) i

/-- Whether the line that is executed next evaluates a call of RND: then its evaluation breaks off with the fault that
it is told to break off with, whichever it is. -/
def stepCallsRandom (image : Image) (s : State) : Bool :=
  match image.lines[s.counter]? with
  | none => false
  | some line => [Fault.noDraw, .tooDeep].all fun f =>
      (image.watch f maxFrames line { s with counter := s.counter + 1 }).1 = .error (.aborted (.fault f))

/-- Whether one of several steps evaluates a call of RND. -/
def stepsCallRandom (image : Image) : (limit : Nat) → State → Bool
  | 0, _ => false
  | limit + 1, s =>
    image.stepCallsRandom s ||
      match image.step s with
      | (.more, s) => image.stepsCallRandom limit s
      | _ => false

end Image

namespace Session

/-- Whether an operation evaluates a call of RND. -/
def callsRandom (image : Image) (limit : Nat) (s : State) : Op → Bool
  | .step => image.stepCallsRandom s.cleared
  | .steps n => image.stepsCallRandom n s.cleared
  | .run => image.stepsCallRandom limit s.cleared
  | .feed _ | .table => false

/-- The number of operations in front of the first one that evaluates a call of RND, if there is one. -/
def firstRandom (image : Image) (limit : Nat) : State → List Op → Option Nat
  | _, [] => none
  | s, op :: ops =>
    if callsRandom image limit s op then some 0
    else
      match apply image limit s op with
      | .ok reply => (firstRandom image limit reply.state ops).map (· + 1)
      | .error _ => none

end Session

/-! ### States but for their generators -/

/-- A generator that stands for any. -/
def Generator.blank : Generator := ⟨Vector.replicate stateSize 0, 0⟩

/-- What can be seen of a state: everything but the generator. -/
def State.unseeded (s : State) : State := { s with generator := .blank }

/-- What can be seen of a reply. -/
def Session.Reply.unseeded (r : Reply) : Reply := { r with state := r.state.unseeded }

/-- States that look alike. -/
abbrev State.LooksLike (errors : List RuntimeError) : State → State → Prop :=
  State.Like Eq (fun _ _ => True) errors

section States

variable {errors : List RuntimeError} {s s' t : State}

theorem State.looksLike_iff : State.LooksLike s.errors s t ↔ t.unseeded = s.unseeded := by
  obtain ⟨store, stack, counter, errors, console, generator⟩ := s
  obtain ⟨store', stack', counter', errors', console', generator'⟩ := t
  constructor
  · rintro ⟨hstore, hstack, hcounter, -, herrors, hconsole, -⟩
    cases hstore
    cases hstack
    cases hcounter
    cases herrors
    cases hconsole
    rfl
  · intro h
    cases h
    exact ⟨rfl, rfl, rfl, rfl, rfl, rfl, trivial⟩

theorem State.unseeded_initial (console : Console) (seed : Int) : (State.initial console seed).unseeded =
    ⟨Vector.replicate letterCount (.number 0), [], 0, [], console, .blank⟩ := rfl

theorem State.LooksLike.unseeded (h : State.LooksLike errors s t) : t.unseeded = s.unseeded :=
  State.looksLike_iff.1 (h.left.symm ▸ h)

theorem State.LooksLike.cleared (h : State.LooksLike errors s t) : State.LooksLike errors s.cleared t.cleared :=
  h.withConsole (congrArg Console.cleared h.console)

/-- States that look like a third one look alike. -/
theorem State.LooksLike.trans (h : State.LooksLike errors s s') (h' : State.LooksLike errors s t) :
    State.LooksLike errors s' t :=
  ⟨h'.store.trans h.store.symm, h'.stack.trans h.stack.symm, h'.counter.trans h.counter.symm, h.right, h'.right,
    h.console.symm.trans h'.console, trivial⟩

theorem State.looksLike_refl (s : State) : State.LooksLike s.errors s s := State.looksLike_iff.2 rfl

end States

/-! ### Evaluation up to the first call -/

namespace Image

variable {errors : List RuntimeError} {image : Image} {s t : State}

theorem watch_succ (image : Image) (f : Fault) (frames : Nat) (i : NodeId) :
    image.watch f (frames + 1) i = image.unlessRandom f
      (image.evaluateWith (image.watch f frames) (image.watch f (frames - 1)) (image.watch f (frames - 2))) i :=
  match frames with
  | 0 => rfl
  | 1 => rfl
  | _ + 2 => rfl

/-- Up to a call of RND, the evaluation of a node does the same with every generator. -/
theorem watch_alike (f : Fault) (frames : Nat) (i : NodeId) :
    Alike (State.LooksLike errors) (· = .aborted (.fault f)) (image.watch f frames i) (image.evaluate frames i) := by
  induction frames using Nat.strongRecOn generalizing i with
  | ind frames ih =>
    cases frames with
    | zero => exact .throw _
    | succ frames =>
      rw [watch_succ, evaluate_succ, unlessRandom]
      split
      · exact fun s t _ => .inl ⟨_, rfl, rfl⟩
      · rename_i hrandom
        exact evaluateWith_alike (State.keeps_like .eq) (fun _ _ j _ => ih frames (Nat.lt_succ_self _) j)
          (fun _ _ j _ => ih (frames - 1) (by omega) j) (fun _ _ j _ => ih (frames - 2) (by omega) j)
          fun h => absurd h hrandom

/-- Whether the evaluation comes to a call of RND is the same with every generator. -/
theorem watch_alike_watch (f : Fault) (frames : Nat) (i : NodeId) :
    Alike (State.LooksLike errors) (fun _ => False) (image.watch f frames i) (image.watch f frames i) := by
  induction frames using Nat.strongRecOn generalizing i with
  | ind frames ih =>
    cases frames with
    | zero => exact .throw _
    | succ frames =>
      rw [watch_succ, unlessRandom]
      split
      · exact .throw _
      · rename_i hrandom
        exact evaluateWith_alike (State.keeps_like .eq) (fun _ _ j _ => ih frames (Nat.lt_succ_self _) j)
          (fun _ _ j _ => ih (frames - 1) (by omega) j) (fun _ _ j _ => ih (frames - 2) (by omega) j)
          fun h => absurd h hrandom

theorem stepCallsRandom_eq (h : State.LooksLike errors s t) : image.stepCallsRandom t = image.stepCallsRandom s := by
  rw [stepCallsRandom, stepCallsRandom, h.counter]
  cases image.lines[s.counter]? with
  | none => rfl
  | some line =>
    have hwatch : ∀ f, (image.watch f maxFrames line { t with counter := s.counter + 1 }).1 =
        (image.watch f maxFrames line { s with counter := s.counter + 1 }).1 := fun f =>
      ((watch_alike_watch f maxFrames line _ _ (h.withCounter _)).resolve_left fun ⟨_, _, hpass⟩ => hpass).1
    dsimp only
    simp only [hwatch]

/-- A step that evaluates no call of RND does the same with every generator. -/
theorem step_unseeded (h : State.LooksLike errors s t) (hs : image.stepCallsRandom s = false) :
    (image.step t).1 = (image.step s).1 ∧
      State.LooksLike (errors ++ (image.step s).1.recorded) (image.step s).2 (image.step t).2 := by
  refine step_like h fun line hline => ?_
  rw [stepCallsRandom, hline] at hs
  obtain ⟨f, -, hf⟩ := List.all_eq_false.1 hs
  have hf := of_decide_eq_false (Bool.eq_false_iff.2 hf)
  -- The evaluation that does not break off is the same as both others.
  have hwatch : ∀ {t : State}, State.LooksLike errors s t → _ := fun h =>
    (watch_alike f maxFrames line _ _ (h.withCounter (s.counter + 1))).resolve_left
      fun ⟨e, he, hpass⟩ => hf (hpass ▸ he)
  obtain ⟨hresult, hstate⟩ := hwatch (h.left ▸ State.looksLike_refl s)
  obtain ⟨hresult', hstate'⟩ := hwatch h
  exact ⟨hresult'.trans hresult.symm, hstate.trans hstate'⟩

theorem stepsCallRandom_eq (h : State.LooksLike errors s t) (limit : Nat) :
    image.stepsCallRandom limit t = image.stepsCallRandom limit s := by
  induction limit generalizing s t errors with
  | zero => rfl
  | succ limit ih =>
    rw [stepsCallRandom, stepsCallRandom, stepCallsRandom_eq h]
    cases hs : image.stepCallsRandom s with
    | true => rfl
    | false =>
      obtain ⟨houtcome, hlike⟩ := step_unseeded h hs
      generalize image.step s = result at houtcome hlike
      generalize image.step t = result' at houtcome hlike
      obtain ⟨o, s'⟩ := result
      obtain ⟨o', t'⟩ := result'
      obtain rfl : o' = o := houtcome
      cases o' with
      | more => exact ih hlike
      | finished | failed e | aborted a => rfl

/-- Steps that evaluate no call of RND do the same with every generator. -/
theorem stepsFrom_unseeded (h : State.LooksLike errors s t) (done : Nat) {limit : Nat}
    (hs : image.stepsCallRandom limit s = false) :
    (image.stepsFrom done limit t).1 = (image.stepsFrom done limit s).1 ∧
      (image.stepsFrom done limit t).2.1 = (image.stepsFrom done limit s).2.1 ∧
      State.LooksLike (errors ++ (image.stepsFrom done limit s).2.1.recorded) (image.stepsFrom done limit s).2.2
        (image.stepsFrom done limit t).2.2 := by
  refine stepsFrom_like (fun limit s => image.stepsCallRandom limit s = false) ?_ ?_ done limit hs h
  · intro limit s t hs h
    rw [stepsCallRandom, Bool.or_eq_false_iff] at hs
    exact step_unseeded h hs.1
  · intro limit s s' hs hstep
    rw [stepsCallRandom, hstep, Bool.or_eq_false_iff] at hs
    exact hs.2

end Image

/-! ### Sessions -/

namespace Session

variable {image : Image} {limit : Nat} {s t : State} {op : Op} {ops : List Op}

theorem callsRandom_eq (h : t.unseeded = s.unseeded) :
    callsRandom image limit t op = callsRandom image limit s op := by
  have hcleared := (State.looksLike_iff.2 h).cleared
  cases op with
  | step => exact Image.stepCallsRandom_eq hcleared
  | steps n => exact Image.stepsCallRandom_eq hcleared n
  | run => exact Image.stepsCallRandom_eq hcleared limit
  | feed text => rfl
  | table => rfl

theorem map_unseeded_ok (r : Report) (e : Option RuntimeError) (h : t.unseeded = s.unseeded) :
    (Except.ok ⟨r, e, t⟩ : Except Abort Reply).map Reply.unseeded =
      (Except.ok ⟨r, e, s⟩ : Except Abort Reply).map Reply.unseeded :=
  congrArg (fun state => Except.ok (⟨r, e, state⟩ : Reply)) h

/-- What comes back after some steps, given the outcome of the last one. -/
theorem map_unseeded_reply {p : Program} {r : Report} {o : Outcome} (h : t.unseeded = s.unseeded) :
    (do return ⟨r, ← errorOf p o, t⟩ : Except Abort Reply).map Reply.unseeded =
      (do return ⟨r, ← errorOf p o, s⟩ : Except Abort Reply).map Reply.unseeded := by
  cases errorOf p o with
  | error a => rfl
  | ok e => exact map_unseeded_ok r e h

/-- An operation that evaluates no call of RND does the same with every generator. -/
theorem apply_unseeded (h : t.unseeded = s.unseeded) (hop : callsRandom image limit s op = false) :
    (apply image limit t op).map Reply.unseeded = (apply image limit s op).map Reply.unseeded := by
  have hcleared := (State.looksLike_iff.2 h).cleared
  -- Several steps and a run differ only in how often they step.
  have hsteps : ∀ n, image.stepsCallRandom n s.cleared = false →
      (image.steps n t.cleared).1 = (image.steps n s.cleared).1 ∧
      (image.steps n t.cleared).2.1 = (image.steps n s.cleared).2.1 ∧
      (image.steps n t.cleared).2.2.unseeded = (image.steps n s.cleared).2.2.unseeded := fun n hn => by
    obtain ⟨hdone, houtcome, hlike⟩ := Image.stepsFrom_unseeded hcleared 0 hn
    exact ⟨hdone, houtcome, hlike.unseeded⟩
  cases op with
  | step =>
    obtain ⟨houtcome, hlike⟩ := Image.step_unseeded hcleared hop
    have hstate := hlike.unseeded
    rw [apply, apply]
    generalize image.step s.cleared = result at houtcome hstate
    generalize image.step t.cleared = result' at houtcome hstate
    obtain ⟨o, s'⟩ := result
    obtain ⟨o', t'⟩ := result'
    obtain rfl : o' = o := houtcome
    dsimp only
    cases errorOf image.program o' with
    | error a => rfl
    | ok e =>
      cases e with
      | none => exact map_unseeded_ok _ none hstate
      | some e => exact map_unseeded_ok _ (some e) hstate
  | steps n =>
    obtain ⟨hdone, houtcome, hstate⟩ := hsteps n hop
    rw [apply, apply]
    generalize image.steps n s.cleared = result at hdone houtcome hstate
    generalize image.steps n t.cleared = result' at hdone houtcome hstate
    obtain ⟨done, o, s'⟩ := result
    obtain ⟨done', o', t'⟩ := result'
    obtain rfl : done' = done := hdone
    obtain rfl : o' = o := houtcome
    exact map_unseeded_reply hstate
  | run =>
    obtain ⟨-, houtcome, hstate⟩ := hsteps limit hop
    rw [apply, apply]
    generalize image.steps limit s.cleared = result at houtcome hstate
    generalize image.steps limit t.cleared = result' at houtcome hstate
    obtain ⟨done, o, s'⟩ := result
    obtain ⟨done', o', t'⟩ := result'
    obtain rfl : o' = o := houtcome
    exact map_unseeded_reply hstate
  | feed text =>
    have hfed : State.LooksLike s.errors _ _ := hcleared.withConsole (congrArg (Console.feed text) hcleared.console)
    exact map_unseeded_ok .silent none hfed.unseeded
  | table =>
    have hstore : t.store = s.store := hcleared.store
    rw [apply, apply, State.table, State.table, hstore]
    exact map_unseeded_ok _ none hcleared.unseeded

/-- A run is cut off by the limit with every generator or with none, if it evaluates no call of RND. -/
theorem cutOff_unseeded (h : t.unseeded = s.unseeded) (hop : callsRandom image limit s op = false) (hrun : op = .run) :
    (image.steps limit t.cleared).2.1 = (image.steps limit s.cleared).2.1 := by
  subst hrun
  exact (Image.stepsFrom_unseeded (State.looksLike_iff.2 h).cleared 0 hop).2.1

/-- Results of operations that look alike are both errors, or both replies with states that look alike. -/
theorem cases_of_map_unseeded {x y : Except Abort Reply} (h : y.map Reply.unseeded = x.map Reply.unseeded) :
    (∃ a, x = .error a ∧ y = .error a) ∨
      ∃ r r', x = .ok r ∧ y = .ok r' ∧ r'.unseeded = r.unseeded ∧ r'.state.unseeded = r.state.unseeded := by
  cases x with
  | error a =>
    cases y with
    | error a' => exact .inl ⟨a, rfl, congrArg Except.error (Except.error.inj h)⟩
    | ok r' => cases h
  | ok r =>
    cases y with
    | error a' => cases h
    | ok r' =>
      have hr : r'.unseeded = r.unseeded := Except.ok.inj h
      exact .inr ⟨r, r', rfl, rfl, hr, congrArg Reply.state hr⟩

/-- The first operation that evaluates a call of RND is the same with every generator. -/
theorem firstRandom_eq (h : t.unseeded = s.unseeded) :
    firstRandom image limit t ops = firstRandom image limit s ops := by
  induction ops generalizing s t with
  | nil => rfl
  | cons op ops ih =>
    rw [firstRandom, firstRandom, callsRandom_eq h]
    cases hop : callsRandom image limit s op with
    | true => rfl
    | false =>
      rcases cases_of_map_unseeded (apply_unseeded h hop) with ⟨a, ha, ha'⟩ | ⟨r, r', hr, hr', -, hstate⟩
      · rw [ha, ha']
      · rw [hr, hr']
        exact congrArg (Option.map (· + 1)) (ih hstate)

/-- The sessions from two states look alike: the replies are the same but for the generators, and the limit cuts off a
run of both or of neither. -/
def LookAlike (image : Image) (limit : Nat) (ops : List Op) (s t : State) : Prop :=
  (play image limit t ops).map (List.map Reply.unseeded) = (play image limit s ops).map (List.map Reply.unseeded) ∧
    (Ends image limit t ops ↔ Ends image limit s ops)

/-- Operations that evaluate no call of RND do the same with every generator. -/
theorem play_unseeded (h : t.unseeded = s.unseeded) (hops : firstRandom image limit s ops = none) :
    LookAlike image limit ops s t := by
  refine play_matches (fun ops s t => t.unseeded = s.unseeded ∧ firstRandom image limit s ops = none)
    Reply.unseeded Reply.unseeded ?_ ⟨h, hops⟩
  rintro op ops s t ⟨h, hops⟩
  rw [firstRandom] at hops
  split at hops
  · cases hops
  rename_i hop
  have hop := Bool.eq_false_iff.2 hop
  refine ⟨cutOff_unseeded h hop, ?_⟩
  rcases cases_of_map_unseeded (apply_unseeded h hop) with herror | ⟨r, r', hr, hr', hreply, hstate⟩
  · exact .inl herror
  · rw [hr, Option.map_eq_none_iff] at hops
    exact .inr ⟨r, r', hr, hr', hreply, hstate, hops⟩

/-- No operation in front of the first one that evaluates a call of RND evaluates one. -/
theorem firstRandom_take {n : Nat} (h : ∀ k, firstRandom image limit s ops = some k → n ≤ k) :
    firstRandom image limit s (ops.take n) = none := by
  induction ops generalizing s n with
  | nil => rw [List.take_nil, firstRandom]
  | cons op ops ih =>
    cases n with
    | zero => rfl
    | succ n =>
      rw [firstRandom] at h
      rw [List.take_succ_cons, firstRandom]
      split at h
      · exact absurd (h 0 rfl) (Nat.not_succ_le_zero n)
      rename_i hop
      rw [if_neg hop]
      cases hr : apply image limit s op with
      | error a => rfl
      | ok r =>
        rw [hr] at h
        refine Option.map_eq_none_iff.2 (ih fun k hk => ?_)
        exact Nat.le_of_succ_le_succ (h (k + 1) (congrArg (Option.map (· + 1)) hk))

end Session

/-! ### Programs without RND -/

namespace Image

variable {image : Image}

theorem watch_eq_evaluate (h : ∀ i, image.isRandom i = false) (f : Fault) (frames : Nat) (i : NodeId) :
    image.watch f frames i = image.evaluate frames i := by
  induction frames using Nat.strongRecOn generalizing i with
  | ind frames ih =>
    cases frames with
    | zero => rfl
    | succ frames =>
      rw [watch_succ, evaluate_succ, unlessRandom, h i, if_neg Bool.false_ne_true,
        funext (ih frames (Nat.lt_succ_self _)), funext (ih (frames - 1) (by omega)),
        funext (ih (frames - 2) (by omega))]

/-- Without nodes that call for random numbers, no step does. -/
theorem stepCallsRandom_eq_false (h : ∀ i, image.isRandom i = false) (s : State) : image.stepCallsRandom s = false := by
  rw [stepCallsRandom]
  split
  · rfl
  · rename_i line hline
    -- What does not break off cannot end in two faults at once.
    rw [Bool.eq_false_iff]
    intro hall
    have hfault := fun f hf => of_decide_eq_true (List.all_eq_true.1 hall f hf)
    simp only [watch_eq_evaluate h] at hfault
    have hboth := (hfault .noDraw (by simp)).symm.trans (hfault .tooDeep (by simp))
    cases hboth

theorem stepsCallRandom_eq_false (h : ∀ i, image.isRandom i = false) (limit : Nat) (s : State) :
    image.stepsCallRandom limit s = false := by
  induction limit generalizing s with
  | zero => rfl
  | succ limit ih =>
    rw [stepsCallRandom, stepCallsRandom_eq_false h, Bool.false_or]
    split
    · exact ih _
    · rfl

/-- Without tokens for RND there are no nodes that call for random numbers. -/
theorem isRandom_eq_false (h : ∀ t ∈ image.program.tokens, t.tag ≠ .builtin .rnd) (i : NodeId) :
    image.isRandom i = false := by
  rw [isRandom]
  split
  · rename_i n hn
    rw [Bool.and_eq_false_iff]
    right
    cases htoken : n.token with
    | none => rfl
    | some j =>
      cases ht : image.program.tokens[j]? with
      | none =>
        have hfault : image.program.token j = .error .dangling := by rw [Program.token, ht]
        exact congrArg (fun r : Except Fault Token => r.toOption.any (·.tag = .builtin .rnd)) hfault
      | some t =>
        have hok : image.program.token j = .ok t := by rw [Program.token, ht]
        refine (congrArg (fun r : Except Fault Token => r.toOption.any (·.tag = .builtin .rnd)) hok).trans ?_
        exact decide_eq_false (h t (Array.mem_of_getElem? ht))
  · rfl

end Image

theorem Session.firstRandom_eq_none {image : Image} (h : ∀ i, image.isRandom i = false) (limit : Nat) (s : State)
    (ops : List Op) : firstRandom image limit s ops = none := by
  induction ops generalizing s with
  | nil => rfl
  | cons op ops ih =>
    have hop : callsRandom image limit s op = false := by
      cases op with
      | step => exact Image.stepCallsRandom_eq_false h _
      | steps n => exact Image.stepsCallRandom_eq_false h n _
      | run => exact Image.stepsCallRandom_eq_false h limit _
      | feed text => rfl
      | table => rfl
    rw [firstRandom, hop, if_neg Bool.false_ne_true]
    cases apply image limit s op with
    | error a => rfl
    | ok r => exact Option.map_eq_none_iff.2 (ih r.state)

/-- Two sessions with a parsed program that differ in their seeds only cannot be told apart by the operations in front
of the first one that evaluates a call of RND, and that one is the same in both. If no token of the program is RND
there is none, so the seed does not matter at all. -/
theorem Program.seed_irrelevant {source : List Char} {p : Program} (h : Program.parse source = .ok p) :
    ∃ image, Image.ofProgram p = .ok image ∧ ∀ console seed seed' limit ops,
      Session.firstRandom image limit (State.initial console seed') ops =
        Session.firstRandom image limit (State.initial console seed) ops ∧
      (∀ n, (∀ k, Session.firstRandom image limit (State.initial console seed) ops = some k → n ≤ k) →
        Session.LookAlike image limit (ops.take n) (State.initial console seed) (State.initial console seed')) ∧
      ((∀ t ∈ p.tokens, t.tag ≠ .builtin .rnd) →
        Session.firstRandom image limit (State.initial console seed) ops = none ∧
        Session.LookAlike image limit ops (State.initial console seed) (State.initial console seed')) := by
  obtain ⟨-, lines, hlines⟩ := Program.parse_eq_ok_iff.1 h
  obtain ⟨clauses, hclauses⟩ := hlines.exists_means
  obtain ⟨image, himage, rfl, -⟩ := hclauses.exists_image
  refine ⟨image, himage, fun console seed seed' limit ops => ?_⟩
  have hstart : (State.initial console seed').unseeded = (State.initial console seed).unseeded := by
    rw [State.unseeded_initial, State.unseeded_initial]
  refine ⟨Session.firstRandom_eq hstart, fun n hn => ?_, fun htokens => ?_⟩
  · exact Session.play_unseeded hstart (Session.firstRandom_take hn)
  · have hnone := Session.firstRandom_eq_none (Image.isRandom_eq_false htokens) limit (.initial console seed) ops
    exact ⟨hnone, Session.play_unseeded hstart hnone⟩

/-- A program that draws in its second line. -/
def Program.dice : List Char := "PRINT 1\nPRINT RND(6)\n".toList

/-- The second step is the one that draws, with every seed, and in front of it the seed does not matter. -/
theorem Program.seed_irrelevant_dice : ∃ p image, Program.parse Program.dice = .ok p ∧ Image.ofProgram p = .ok image ∧
    ∀ seed, Session.firstRandom image 0 (State.initial (Console.ofInput []) seed) [.step, .step] = some 1 ∧
      Session.LookAlike image 0 [.step] (State.initial (Console.ofInput []) 0)
        (State.initial (Console.ofInput []) seed) := by
  have hrun : (Program.parse Program.dice).toOption.any (fun p => (Image.ofProgram p).toOption.any fun image =>
      decide (Session.firstRandom image 0 (State.initial (Console.ofInput []) 0) [.step, .step] = some 1)) = true := by
    decide +kernel
  obtain ⟨p, hp, hrun⟩ := exists_ok_of_any hrun
  obtain ⟨image, himage, hrun⟩ := exists_ok_of_any hrun
  have hfirst := of_decide_eq_true hrun
  obtain ⟨image', himage', hseed⟩ := Program.seed_irrelevant hp
  obtain rfl := Except.ok.inj (himage.symm.trans himage')
  refine ⟨p, image, hp, himage, fun seed => ?_⟩
  obtain ⟨hsame, htake, -⟩ := hseed (Console.ofInput []) 0 seed 0 [.step, .step]
  exact ⟨hsame.trans hfirst, htake 1 fun k hk => Nat.le_of_eq (Option.some.inj (hfirst.symm.trans hk))⟩

end LineBasic

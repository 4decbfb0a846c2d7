import LineBasic.Proofs.Machine.Halts
import LineBasic.Proofs.Machine.WellFormed

/-!
# Parsed programs do not go wrong

A step of a parsed program succeeds or fails with an error of the program, in every state that can be reached, also
behind earlier errors; only a draw may go on for too long. The errors that belong to some statements are raised at
these statements only.

## Main definitions

* `Image.Reaches`, `Image.Arrives`: the statement that a step reaches through IF statements.
* `Image.Justified`: an error is raised where it may be.
* `Image.Safe`: the next step does not go wrong.
* `Image.Reachable`: the states that are reached step by step.

## Main results

* `Stmt.Reaches.shown`: the statements that are reached on both sides.
* `Image.Represents.safe`: what one step does.
* `Program.parsed_steps_safe`: parsed programs.
-/

namespace LineBasic

open Arena

/-! ### Errors where they belong -/

/-- IF statements whose conditions hold lead from one node to another, and from one state to another. -/
inductive Image.Reaches (image : Image) : (frames : Nat) → NodeId → State → NodeId → State → Prop
  | here (frames : Nat) (i : NodeId) (s : State) : Reaches image frames i s i s
  | branch {frames : Nat} {i c b j : NodeId} {n : Node} {v : Value} {s s' s'' : State}
      (hn : image.program.arena.nodes[i]? = some n) (htag : n.tag = .branch) (hlhs : n.lhs = some c)
      (hrhs : n.rhs = some b) (hc : image.evaluate frames c s = (.ok v, s')) (hv : v ≠ .number 0)
      (h : Reaches image frames b s' j s'') : Reaches image (frames + 1) i s j s''

/-- The next step reaches a statement in some state. -/
def Image.Arrives (image : Image) (s : State) (statement : Node) (s' : State) : Prop :=
  ∃ line n b j, image.lines[s.counter]? = some line ∧ image.program.arena.nodes[line]? = some n ∧
    n.lhs = some b ∧ image.Reaches (maxFrames - 1) b { s with counter := s.counter + 1 } j s' ∧
    image.program.arena.nodes[j]? = some statement

/-- Some errors are raised by some statements only, and RETURN and GOSUB raise theirs when nothing or too much was
saved. -/
def Image.Justified (image : Image) (s : State) : Reason → Prop
  | .notImplemented =>
    ∃ statement s', image.Arrives s statement s' ∧ ∃ a ∈ [Action.clear, .list, .run], statement.tag = .action a
  | .returnWithoutGosub =>
    ∃ statement s', image.Arrives s statement s' ∧ statement.tag = .action .ret ∧ s'.stack = []
  | .tooManyGosubs =>
    ∃ statement s', image.Arrives s statement s' ∧ statement.tag = .gosub ∧ s'.stack.length = maxStack
  | .mathOverflow | .divisionByZero | .missingLine _ | .ioFailed _ => True

/-- The next step completes or fails with an error that is justified, unless a draw never ends. -/
structure Image.Safe (image : Image) (s : State) : Prop where
  aborted : ∀ a, (image.step s).1 = .aborted a → a = .fault .noDraw
  failed : ∀ e, (image.step s).1 = .failed e → image.Justified s e.reason

/-- The states that are reached by steps. In between, output may be taken away and input added. -/
inductive Image.Reachable (image : Image) (s : State) : State → Prop
  | initial : Reachable image s s
  | step {s' : State} (h : Reachable image s s') : Reachable image s (image.step s').2
  | cleared {s' : State} (h : Reachable image s s') : Reachable image s s'.cleared
  | feed {s' : State} (h : Reachable image s s') (text : List Char) :
      Reachable image s { s' with console := s'.console.feed text }

section Safety

variable {image : Image} {clauses : List Clause} {table : Int → Option Nat}

/-- IF statements lead to the same statements on both sides. -/
theorem Stmt.Reaches.shown {s s' : PlainStmt} {m m' : Machine} (h : s.Reaches m s' m') {t : TokenId} {i : NodeId}
    {frames : Nat} (hs : s.ShownIn image.program.lexemes image.program.arena t i)
    (hframes : 6 * s.nesting + 2 ≤ frames) :
    ∃ t' j, image.Reaches frames i m.toState j m'.toState ∧
      s'.ShownIn image.program.lexemes image.program.arena t' j := by
  induction h generalizing t i frames with
  | here s m => exact ⟨t, i, .here _ _ _, hs⟩
  | @branch e₁ e₂ r body s m m' m'' htest _ ih =>
    obtain ⟨f, tb, c, b, rfl, hi, hmirrors, hb, hbody⟩ := hs.mirrors_condition hframes
    have hcondition : image.evaluate f c m.toState = _ := hmirrors m
    rw [htest] at hcondition
    obtain ⟨t', j, hreach, hs'⟩ := ih hb hbody
    exact ⟨t', j, .branch hi.2 rfl rfl rfl hcondition (by decide) hreach, hs'⟩

/-- The ways in which a statement halts of its own are justified where it is shown. -/
theorem Stmt.HaltsWith.justified {s : PlainStmt} {m : Machine} {h : Halt} (hs : s.HaltsWith m h) {t : TokenId}
    {i : NodeId} (hi : s.ShownIn image.program.lexemes image.program.arena t i) {state : State}
    (harrives : ∀ n, image.program.arena.nodes[i]? = some n → image.Arrives state n m.toState) :
    ∃ r, h = .stopped r ∧ image.Justified state r := by
  cases s with
  | action _ a =>
    have harrives := harrives _ hi.2
    cases a with
    | ret =>
      obtain ⟨rfl, hstack⟩ := hs
      exact ⟨_, rfl, _, _, harrives, rfl, hstack⟩
    | halt =>
      obtain ⟨rfl, ha⟩ := hs
      simp at ha
    | clear | list | run =>
      obtain ⟨rfl, ha⟩ := hs
      exact ⟨_, rfl, _, _, harrives, _, ha, rfl⟩
  | gosub _ e =>
    obtain ⟨rfl, hstack⟩ := hs
    obtain ⟨j, -, hi⟩ := hi
    exact ⟨_, rfl, _, _, harrives _ hi.2, rfl, hstack⟩
  | print _ _ _ => exact hs.elim
  | input _ _ _ => exact hs.elim
  | assign _ _ => exact hs.elim
  | branch _ _ _ _ _ _ => exact hs.elim
  | goto _ _ => exact hs.elim

theorem Reason.Common.justified {r : Reason} (h : r.Common) (s : State) : image.Justified s r := by
  cases r with
  | notImplemented | returnWithoutGosub | tooManyGosubs => exact h.elim
  | mathOverflow | divisionByZero | missingLine _ | ioFailed _ => trivial

namespace Image.Represents

/-- The next step arrives at the statement to which IF statements lead. -/
theorem arrives (h : image.Represents clauses) {m m' : Machine} {c : Clause} {s : PlainStmt}
    (hc : clauses[m.position]? = some c)
    (hreach : c.line.body.Reaches { m with position := m.position + 1 } s m') :
    ∃ t j, s.ShownIn image.program.lexemes image.program.arena t j ∧
      ∀ n, image.program.arena.nodes[j]? = some n → image.Arrives m.toState n m'.toState := by
  obtain ⟨i, b, n, hi, hn, hlhs, -, hb⟩ := h.exists_line hc
  have hnesting : c.line.body.nesting ≤ 64 := h.nesting c (List.mem_of_getElem? hc)
  -- The frames that are left to the statement do for all levels of nesting.
  have hframes : 6 * c.line.body.nesting + 2 ≤ maxFrames - 1 := by
    rw [maxFrames]
    omega
  obtain ⟨t, j, hreach, hj⟩ := hreach.shown hb hframes
  exact ⟨t, j, hj, fun statement hstatement => ⟨i, n, b, j, hi, hn.2, hlhs, hreach, hstatement⟩⟩

theorem halts (h : image.Represents clauses) {m : Machine} {c : Clause} (hc : clauses[m.position]? = some c)
    {halt : Halt} (hhalt : (c.line.body.exec table { m with position := m.position + 1 }).1 = .error halt) :
    halt.Common m.console.failure ∨ ∃ r, halt = .stopped r ∧ image.Justified m.toState r := by
  rcases (c.line.body.exec_halts table { m with position := m.position + 1 }).2 halt hhalt with
    hcommon | ⟨s', m', hreach, hs'⟩
  · exact .inl hcommon
  · obtain ⟨t, j, hj, harrives⟩ := h.arrives hc hreach
    exact .inr (hs'.justified hj harrives)

/-- Steps are safe as long as writes do not fail for lack of memory. -/
theorem safe (h : image.Represents clauses) {m : Machine} (hm : m.console.failure ≠ .memory) :
    image.Safe m.toState := by
  cases hc : clauses[m.position]? with
  | none =>
    have hstep : image.step m.toState = (.finished, m.toState) := by
      rw [h.step_eq, Machine.step, hc]
    exact ⟨fun a ha => by simp [hstep] at ha, fun e he => by simp [hstep] at he⟩
  | some c =>
    have hstep := h.step_eq m
    have hhalts : ∀ halt,
        (c.line.body.exec (lastNumbered · clauses) { m with position := m.position + 1 }).1 = .error halt →
          halt.Common m.console.failure ∨ ∃ r, halt = .stopped r ∧ image.Justified m.toState r :=
      fun halt => h.halts hc
    rw [Machine.step, hc] at hstep
    dsimp only at hstep
    generalize c.line.body.exec (lastNumbered · clauses) { m with position := m.position + 1 } = result
      at hstep hhalts
    rcases result with ⟨e | u, m'⟩
    · cases e with
      | stopped r =>
        refine ⟨fun a ha => by simp [hstep] at ha, fun e he => ?_⟩
        rw [hstep] at he
        cases he
        rcases hhalts _ rfl with hcommon | ⟨r', hr, hjustified⟩
        · exact Reason.Common.justified hcommon _
        · cases hr
          exact hjustified
      | aborted a =>
        refine ⟨fun a ha => ?_, fun e he => by simp [hstep] at he⟩
        rw [hstep] at ha
        cases ha
        rcases hhalts _ rfl with hcommon | ⟨r', hr, -⟩
        · cases a with
          | outOfMemory => exact absurd hcommon hm
          | fault f => exact congrArg Abort.fault hcommon
        · cases hr
    · exact ⟨fun a ha => by simp [hstep] at ha, fun e he => by simp [hstep] at he⟩

end Image.Represents

theorem Machine.step_failure (clauses : List Clause) (m : Machine) :
    (m.step clauses).2.console.failure = m.console.failure := by
  rw [step]
  cases clauses[m.position]? with
  | none => rfl
  | some c =>
    have hfailure := (c.line.body.exec_halts (lastNumbered · clauses) { m with position := m.position + 1 }).1
    dsimp only
    generalize c.line.body.exec (lastNumbered · clauses) { m with position := m.position + 1 } = result
      at hfailure
    rcases result with ⟨e | u, m'⟩
    · cases e with
      | stopped r => exact hfailure
      | aborted a => exact hfailure
    · exact hfailure

/-- The states that are reached step by step are those of the structural machine. -/
theorem Image.Represents.exists_machine (h : image.Represents clauses) {m : Machine} {s : State}
    (hs : image.Reachable m.toState s) :
    ∃ m' : Machine, m'.toState = s ∧ m'.console.failure = m.console.failure := by
  induction hs with
  | initial => exact ⟨m, rfl, rfl⟩
  | step _ ih =>
    obtain ⟨m', rfl, hfailure⟩ := ih
    refine ⟨(m'.step clauses).2, ?_, (m'.step_failure clauses).trans hfailure⟩
    rw [h.step_eq]
  | cleared _ ih =>
    obtain ⟨m', rfl, hfailure⟩ := ih
    exact ⟨m'.cleared, rfl, hfailure⟩
  | feed _ text ih =>
    obtain ⟨m', rfl, hfailure⟩ := ih
    exact ⟨{ m' with console := m'.console.feed text }, rfl, hfailure⟩

end Safety

/-- Parsed programs do not go wrong: their images are built and in order, evaluation descends in them, and no step
from a reachable state goes wrong, as long as writes do not fail for lack of memory. -/
theorem Program.parsed_steps_safe {source : List Char} {p : Program} (hp : Program.parse source = .ok p) :
    ∃ image, Image.ofProgram p = .ok image ∧ image.program = p ∧ image.WellFormed ∧ image.Descends ∧
      ∀ console seed s, console.failure ≠ .memory → image.Reachable (State.initial console seed) s →
        image.Safe s := by
  obtain ⟨-, lines, hlines⟩ := Program.parse_eq_ok_iff.1 hp
  obtain ⟨clauses, hclauses⟩ := hlines.exists_means
  obtain ⟨image, himage, rfl, h⟩ := hclauses.exists_image
  have hwell := h.wellFormed hclauses
  refine ⟨image, himage, rfl, hwell, hwell.descends, fun console seed s hconsole hs => ?_⟩
  rw [← Machine.toState_initial] at hs
  obtain ⟨m, rfl, hfailure⟩ := h.exists_machine hs
  refine h.safe ?_
  rw [hfailure]
  exact hconsole

theorem Program.sample_steps_safe : ∃ p image, Program.parse Program.sample = .ok p ∧
    Image.ofProgram p = .ok image ∧ image.WellFormed ∧ image.Descends ∧
    image.Safe (image.step (State.initial (Console.ofInput []) 0)).2 := by
  obtain ⟨p, hp⟩ := Program.exists_parse_sample
  obtain ⟨image, himage, -, hwell, hdescends, hsafe⟩ := Program.parsed_steps_safe hp
  exact ⟨p, image, hp, himage, hwell, hdescends, hsafe (Console.ofInput []) 0 _ (by decide) (.step .initial)⟩

end LineBasic

import LineBasic.Proofs.Machine.Frame
import LineBasic.Proofs.Machine.Safety

/-!
# Subroutines

GOSUB saves the position of the next line, and RETURN goes back to the position that was saved last. A step does
one of these at most once, so they match like brackets over any run.

## Main definitions

* `Stmt.Moves`: what a statement does to the saved positions.
* `Image.RunsAbove`: steps between which the saved positions are never fewer than some number.

## Main results

* `Stmt.exec_moves`, `Image.Represents.moves`: one statement and one step.
* `Image.Represents.isSuffix_of_runsAbove`: what a run keeps.
* `Program.gosub_return_match`: parsed programs.
-/

namespace LineBasic

open Arena

/-! ### Statements -/

/-- A statement leaves the saved positions alone, or it leads to a GOSUB that saves the present position, or to a
RETURN that goes to the position that was saved last. -/
inductive Stmt.Moves (s : PlainStmt) (m m' : Machine) : Prop
  | stay (h : m'.stack = m.stack)
  | save {mark : Unit} {e : PlainExpr .sum} {m₁ : Machine} (hreach : s.Reaches m (.gosub mark e) m₁)
      (hroom : m.stack.length ≠ maxStack) (h : m'.stack = m.position :: m.stack)
  | restore {mark : Unit} {m₁ : Machine} (hreach : s.Reaches m (.action mark .ret) m₁)
      (h : m.stack = m'.position :: m'.stack)

/-- The saved positions and the present one. -/
def Machine.control (m : Machine) : List Nat × Nat := (m.stack, m.position)

@[inherit_doc Machine.control]
def State.control (s : State) : List Nat × Nat := (s.stack, s.counter)

theorem Run.leaves_stack_jump (table : Int → Option Nat) (w : Word) : Run.Leaves Machine.stack (Run.jump table w) := by
  rw [Run.jump]
  split
  · exact .modify fun _ => rfl
  · exact .stop _

/-- Saving and then going somewhere saves one position, and only if there is room. -/
theorem Stmt.exec_gosub_stack (table : Int → Option Nat) (mark : Unit) (e : PlainExpr .sum) (m : Machine) :
    ((Stmt.gosub mark e : PlainStmt).exec table m).2.stack =
      if m.stack.length = maxStack then m.stack else m.position :: m.stack := by
  have hjump : Run.Leaves Machine.stack (e.value >>= Run.jump table) :=
    (e.leaves_value fun _ _ => rfl).bind (Run.leaves_stack_jump table)
  rw [exec, bind_apply, Run.save_apply]
  by_cases hfull : m.stack.length = maxStack
  · rw [if_pos hfull, if_pos hfull]
  · rw [if_neg hfull, if_neg hfull]
    exact hjump _

theorem Stmt.exec_moves (table : Int → Option Nat) (s : PlainStmt) (m : Machine) :
    s.Moves m (s.exec table m).2 := by
  -- Most statements leave the saved positions alone, whether they fail or not.
  have stay : ∀ {s : PlainStmt}, Run.Leaves Machine.stack (s.exec table) → s.Moves m (s.exec table m).2 :=
    fun h => .stay (h m)
  induction s generalizing m with
  | print mark item more =>
    exact stay (.bind (.mapM _ fun item => item.leaves_printed fun _ _ => rfl) fun _ => .put (fun _ _ => rfl) _)
  | input mark v more =>
    exact stay (.forM _ fun v => .bind (.ask fun _ _ => rfl) fun _ => .modify fun _ => rfl)
  | assign v e => exact stay (.bind (e.leaves_value fun _ _ => rfl) fun _ => .modify fun _ => rfl)
  | branch mark e₁ r relation e₂ body ih =>
    have hcontrol : (r.test e₁ e₂ m).2.control = m.control := r.leaves_test (fun _ _ => rfl) e₁ e₂ m
    obtain ⟨hstack, hposition⟩ := Prod.mk.inj hcontrol
    rw [exec, bind_apply]
    generalize htest : r.test e₁ e₂ m = result at hstack hposition
    rcases result with ⟨e | holds, m'⟩
    · exact .stay hstack
    · cases holds with
      | false => exact .stay hstack
      | true =>
        dsimp only at hstack hposition ⊢
        rcases ih m' (fun h => .stay (h m')) with h | ⟨hreach, hroom, h⟩ | ⟨hreach, h⟩
        · exact .stay (h.trans hstack)
        · exact .save (.branch htest hreach) (hstack ▸ hroom) (by rw [← hstack, ← hposition]; exact h)
        · exact .restore (.branch htest hreach) (hstack ▸ h)
  | goto mark e => exact stay (.bind (e.leaves_value fun _ _ => rfl) (Run.leaves_stack_jump table))
  | gosub mark e =>
    have hstack := Stmt.exec_gosub_stack table mark e m
    split at hstack
    · exact .stay hstack
    · exact .save (.here _ m) ‹_› hstack
  | action mark a =>
    cases a with
    | ret =>
      obtain ⟨store, stack, position, errors, console, generator⟩ := m
      cases stack with
      | nil => exact .stay rfl
      | cons position stack => exact .restore (.here _ _) rfl
    | halt => exact stay (.modify fun _ => rfl)
    | clear | list | run => exact stay (.stop _)

/-- The way to a statement through IF statements leaves saved positions and position alone. -/
theorem Stmt.Reaches.control_eq {s s' : PlainStmt} {m m' : Machine} (h : s.Reaches m s' m') :
    m'.control = m.control := by
  induction h with
  | here => rfl
  | @branch e₁ e₂ r body s m m' m'' htest _ ih =>
    have hcontrol : (r.test e₁ e₂ m).2.control = m.control := r.leaves_test (fun _ _ => rfl) e₁ e₂ m
    rw [htest] at hcontrol
    exact ih.trans hcontrol

/-- The way to a statement through IF statements leads to less nesting. -/
theorem Stmt.Reaches.nesting_le {s s' : PlainStmt} {m m' : Machine} (h : s.Reaches m s' m') :
    s'.nesting ≤ s.nesting := by
  induction h with
  | here => exact Nat.le_refl _
  | branch _ _ ih =>
    rw [nesting]
    omega

/-- A statement does what the statement does to which IF statements lead. -/
theorem Stmt.Reaches.exec_eq (table : Int → Option Nat) {s s' : PlainStmt} {m m' : Machine}
    (h : s.Reaches m s' m') : s.exec table m = s'.exec table m' := by
  induction h with
  | here => rfl
  | branch htest _ ih =>
    rw [exec, bind_apply, htest]
    exact ih

/-! ### Steps -/

section Steps

variable {image : Image} {clauses : List Clause}

/-- What a step does to the saved positions: nothing, or it arrives at a GOSUB that saves the position of the next
line, or at a RETURN that goes to the position that was saved last. -/
inductive Image.Moves (image : Image) (s s' : State) : Prop
  | stay (h : s'.stack = s.stack)
  | save {statement : Node} {s₁ : State} (harrives : image.Arrives s statement s₁) (htag : statement.tag = .gosub)
      (hroom : s.stack.length ≠ maxStack) (h : s'.stack = (s.counter + 1) :: s.stack)
  | restore {statement : Node} {s₁ : State} (harrives : image.Arrives s statement s₁)
      (htag : statement.tag = .action .ret) (h : s.stack = s'.counter :: s'.stack)

/-- The kind of node that a statement is shown at. -/
def Stmt.nodeTag : PlainStmt → NodeTag
  | .print .. => .print
  | .input .. => .input
  | .assign .. => .assign
  | .branch .. => .branch
  | .goto .. => .goto
  | .gosub .. => .gosub
  | .action _ a => .action a

theorem Stmt.ShownIn.exists_tag {ws : List Lexeme} {a : Arena} {s : PlainStmt} {t : TokenId} {i : NodeId}
    (h : s.ShownIn ws a t i) : ∃ n, a.Has i n ∧ n.tag = s.nodeTag := by
  cases s with
  | print _ item more =>
    obtain ⟨js, -, n, hn, htag, -⟩ := h
    exact ⟨n, hn, htag⟩
  | input _ v more =>
    obtain ⟨js, -, n, hn, htag, -⟩ := h
    exact ⟨n, hn, htag⟩
  | assign v e =>
    obtain ⟨j, -, -, hi⟩ := h
    exact ⟨_, hi, rfl⟩
  | branch _ e₁ r _ e₂ body =>
    obtain ⟨j₁, j₂, tr, c, tb, b, -, -, -, -, -, hi⟩ := h
    exact ⟨_, hi, rfl⟩
  | goto _ e =>
    obtain ⟨j, -, hi⟩ := h
    exact ⟨_, hi, rfl⟩
  | gosub _ e =>
    obtain ⟨j, -, hi⟩ := h
    exact ⟨_, hi, rfl⟩
  | action _ k => exact ⟨_, h, rfl⟩

theorem Stmt.ShownIn.tag_eq {ws : List Lexeme} {a : Arena} {s : PlainStmt} {t : TokenId} {i : NodeId} {n : Node}
    (h : s.ShownIn ws a t i) (hn : a.nodes[i]? = some n) : n.tag = s.nodeTag := by
  obtain ⟨n', hn', htag⟩ := h.exists_tag
  rw [hn'.2] at hn
  cases hn
  exact htag

/-- IF statements lead to nothing in the arena to which they do not lead in the plain tree. -/
theorem Image.Reaches.exists_reaches {frames : Nat} {i j : NodeId} {state state' : State}
    (h : image.Reaches frames i state j state') {s : PlainStmt} {m : Machine} {t : TokenId}
    (hstate : m.toState = state) (hs : s.ShownIn image.program.lexemes image.program.arena t i)
    (hframes : 6 * s.nesting + 2 ≤ frames) :
    ∃ s' m' t', s.Reaches m s' m' ∧ m'.toState = state' ∧
      s'.ShownIn image.program.lexemes image.program.arena t' j := by
  induction h generalizing s m t with
  | here frames i state => exact ⟨s, m, t, .here s m, hstate, hs⟩
  | @branch frames i c b j n v state state' state'' hn htag hlhs hrhs hc hv _ ih =>
    have hbranch := (hs.tag_eq hn).symm.trans htag
    cases s with
    | branch _ e₁ r _ e₂ body =>
      obtain ⟨f, tb, c', b', hf, hi, hmirrors, hb, hbody⟩ := hs.mirrors_condition hframes
      obtain rfl := Nat.succ.inj hf
      obtain rfl := Option.some.inj (hi.2.symm.trans hn)
      cases hlhs
      cases hrhs
      have htest : image.evaluate frames c m.toState = _ := hmirrors m
      rw [hstate, hc] at htest
      obtain ⟨hvalue, hstate'⟩ := Prod.mk.inj htest
      -- The condition has a value other than zero, so the test holds.
      rcases hresult : r.test e₁ e₂ m with ⟨e | holds, m'⟩
      · rw [hresult] at hvalue
        cases hvalue
      · rw [hresult] at hvalue hstate'
        cases holds with
        | false =>
          cases hvalue
          exact absurd rfl hv
        | true =>
          obtain ⟨s', m'', t', hreach, hm'', hs'⟩ := ih hstate'.symm hb hbody
          exact ⟨s', m'', t', .branch hresult hreach, hm'', hs'⟩
    | _ => cases hbranch

namespace Image.Represents

/-- What a step arrives at is a statement that is shown there, and the plain line reaches it. -/
theorem exists_reaches (h : image.Represents clauses) {m : Machine} {statement : Node} {s' : State}
    (harrives : image.Arrives m.toState statement s') : ∃ c s m' t j, clauses[m.position]? = some c ∧
      c.line.body.Reaches { m with position := m.position + 1 } s m' ∧ m'.toState = s' ∧
      s.ShownIn image.program.lexemes image.program.arena t j ∧ image.program.arena.nodes[j]? = some statement ∧
      6 * s.nesting ≤ maxFrames := by
  obtain ⟨line, n, b, j, hline, hn, hlhs, hreach, hj⟩ := harrives
  cases hc : clauses[m.position]? with
  | none =>
    rw [show m.toState.counter = m.position from rfl, h.lines_eq_none hc] at hline
    cases hline
  | some c =>
    obtain ⟨i, b', n', hi, hn', hlhs', -, hb⟩ := h.exists_line hc
    rw [show m.toState.counter = m.position from rfl, hi] at hline
    cases hline
    obtain rfl := Option.some.inj (hn'.2.symm.trans hn)
    obtain rfl := Option.some.inj (hlhs'.symm.trans hlhs)
    have hnesting : c.line.body.nesting ≤ 64 := h.nesting c (List.mem_of_getElem? hc)
    obtain ⟨s, m', t, hreach, hm', hs⟩ := hreach.exists_reaches (m := { m with position := m.position + 1 }) rfl hb
      (by rw [maxFrames]; omega)
    have hle := hreach.nesting_le
    exact ⟨c, s, m', t, j, rfl, hreach, hm', hs, hj, by rw [maxFrames]; omega⟩

/-- A step does to the saved positions and the present one what its line does. -/
theorem control_step (h : image.Represents clauses) {m : Machine} {c : Clause} (hc : clauses[m.position]? = some c) :
    (image.step m.toState).2.control =
      (c.line.body.exec (lastNumbered · clauses) { m with position := m.position + 1 }).2.control := by
  rw [h.step_eq, Machine.step, hc]
  dsimp only
  generalize c.line.body.exec (lastNumbered · clauses) { m with position := m.position + 1 } = result
  rcases result with ⟨e | u, m'⟩
  · cases e with
    | stopped r => rfl
    | aborted a => rfl
  · rfl

theorem moves (h : image.Represents clauses) (m : Machine) : image.Moves m.toState (image.step m.toState).2 := by
  cases hc : clauses[m.position]? with
  | none =>
    rw [h.step_eq, Machine.step, hc]
    exact .stay rfl
  | some c =>
    obtain ⟨hstack, hcounter⟩ := Prod.mk.inj (h.control_step hc)
    rcases c.line.body.exec_moves (lastNumbered · clauses) { m with position := m.position + 1 } with
      hstay | ⟨hreach, hroom, hsave⟩ | ⟨hreach, hrestore⟩
    · exact .stay (hstack.trans hstay)
    · obtain ⟨t, j, ⟨i, -, hj⟩, harrives⟩ := h.arrives hc hreach
      exact .save (harrives _ hj.2) rfl hroom (hstack.trans hsave)
    · obtain ⟨t, j, hj, harrives⟩ := h.arrives hc hreach
      refine .restore (harrives _ hj.2) rfl ?_
      rw [hstack, hcounter]
      exact hrestore

/-- A step that arrives at a GOSUB saves the position of the next line if there is room. -/
theorem stack_step_of_gosub (h : image.Represents clauses) {m : Machine} {statement : Node} {s' : State}
    (harrives : image.Arrives m.toState statement s') (htag : statement.tag = .gosub)
    (hroom : m.stack.length < maxStack) :
    (image.step m.toState).2.stack = (m.position + 1) :: m.stack := by
  obtain ⟨c, s, m', t, j, hc, hreach, -, hs, hj, -⟩ := h.exists_reaches harrives
  obtain ⟨hstack, hposition⟩ := Prod.mk.inj hreach.control_eq
  have hgosub := (hs.tag_eq hj).symm.trans htag
  cases s with
  | gosub mark e =>
    rw [(Prod.mk.inj (h.control_step hc)).1, hreach.exec_eq]
    show ((Stmt.gosub mark e : PlainStmt).exec (lastNumbered · clauses) m').2.stack = _
    rw [Stmt.exec_gosub_stack, hstack, hposition, if_neg (Nat.ne_of_lt hroom)]
  | _ => cases hgosub

end Image.Represents

/-! ### Runs -/

/-- The states that are reached by steps that all leave a number of positions saved. In between, output may be
taken away and input added. -/
inductive Image.RunsAbove (image : Image) (depth : Nat) (s : State) : State → Prop
  | start : RunsAbove image depth s s
  | step {s' : State} (h : RunsAbove image depth s s') (hdepth : depth ≤ (image.step s').2.stack.length) :
      RunsAbove image depth s (image.step s').2
  | cleared {s' : State} (h : RunsAbove image depth s s') : RunsAbove image depth s s'.cleared
  | feed {s' : State} (h : RunsAbove image depth s s') (text : List Char) :
      RunsAbove image depth s { s' with console := s'.console.feed text }

namespace Image

theorem RunsAbove.reachable {depth : Nat} {s s' : State} (h : image.RunsAbove depth s s') :
    image.Reachable s s' := by
  induction h with
  | start => exact .initial
  | step _ _ ih => exact .step ih
  | cleared _ ih => exact .cleared ih
  | feed _ text ih => exact .feed ih text

/-- What is saved last goes first: a step that leaves as many positions saved leaves them saved. -/
theorem Moves.isSuffix {s s' : State} (h : image.Moves s s') {saved : List Nat} (hsaved : saved <:+ s.stack)
    (hlength : saved.length ≤ s'.stack.length) : saved <:+ s'.stack := by
  rcases h with hstay | ⟨-, -, -, hsave⟩ | ⟨-, -, hrestore⟩
  · rwa [hstay]
  · rw [hsave]
    exact hsaved.trans (List.suffix_cons _ _)
  · rw [hrestore, List.suffix_cons_iff] at hsaved
    rcases hsaved with rfl | hsaved
    · rw [List.length_cons] at hlength
      omega
    · exact hsaved

/-- A step that leaves less saved than before takes away the position that was saved last and goes there, at a
RETURN. -/
theorem Moves.exists_restore {s s' : State} (h : image.Moves s s') (hlength : s'.stack.length < s.stack.length) :
    s.stack = s'.counter :: s'.stack ∧
      ∃ statement s₁, image.Arrives s statement s₁ ∧ statement.tag = .action .ret := by
  rcases h with hstay | ⟨-, -, -, hsave⟩ | ⟨harrives, htag, hrestore⟩
  · rw [hstay] at hlength
    omega
  · rw [hsave, List.length_cons] at hlength
    omega
  · exact ⟨hrestore, _, _, harrives, htag⟩

namespace Represents

/-- There is never more saved than there is room for. -/
theorem stack_length_le (h : image.Represents clauses) {m : Machine} (hm : m.stack.length ≤ maxStack) {s : State}
    (hs : image.Reachable m.toState s) : s.stack.length ≤ maxStack := by
  induction hs with
  | initial => exact hm
  | @step s' hs' ih =>
    obtain ⟨m', rfl, -⟩ := h.exists_machine hs'
    rcases h.moves m' with hstay | ⟨-, -, hroom, hsave⟩ | ⟨-, -, hrestore⟩
    · rwa [hstay]
    · rw [hsave, List.length_cons]
      omega
    · rw [hrestore, List.length_cons] at ih
      omega
  | cleared _ ih => exact ih
  | feed _ text ih => exact ih

/-- Positions stay saved as long as no fewer are. -/
theorem isSuffix_of_runsAbove (h : image.Represents clauses) {m : Machine} {s : State}
    (hs : image.RunsAbove m.stack.length m.toState s) : m.stack <:+ s.stack := by
  induction hs with
  | start => exact List.suffix_rfl
  | @step s' hs' hdepth ih =>
    obtain ⟨m', rfl, -⟩ := h.exists_machine hs'.reachable
    exact (h.moves m').isSuffix ih hdepth
  | cleared _ ih => exact ih
  | feed _ text ih => exact ih

/-- The bracket that a GOSUB opens is closed by the RETURN that takes its position away. -/
theorem restores_of_runsAbove (h : image.Represents clauses) {m : Machine} {position : Nat} {stack : List Nat}
    (hm : m.stack = position :: stack) {s : State} (hs : image.RunsAbove (stack.length + 1) m.toState s)
    (hlength : (image.step s).2.stack.length = stack.length) :
    (image.step s).2.control = (stack, position) ∧
      ∃ statement s', image.Arrives s statement s' ∧ statement.tag = .action .ret := by
  have hsuffix : m.stack <:+ s.stack := h.isSuffix_of_runsAbove (by rwa [hm])
  obtain ⟨m', rfl, -⟩ := h.exists_machine hs.reachable
  have hdeep := hsuffix.length_le
  rw [hm, List.length_cons] at hdeep
  obtain ⟨hrestore, hret⟩ := (h.moves m').exists_restore (by omega)
  refine ⟨?_, hret⟩
  -- Both lists have the same length, so the one is all of the other.
  rw [hrestore, hm] at hsuffix
  have heq := hsuffix.eq_of_length (by rw [List.length_cons, List.length_cons, hlength])
  cases heq
  rfl

end Represents

end Image

end Steps

/-- In a parsed program, GOSUB and RETURN match like brackets over any run. A step saves the position of the next
line exactly if it arrives at a GOSUB and there is room. As long as no fewer positions are saved from there on, the
saved ones stay what they are, whatever the steps do and whether they fail or not. The first step that leaves one
less has arrived at a RETURN; it leaves saved what was saved before the GOSUB, and goes on behind it. -/
theorem Program.gosub_return_match {source : List Char} {p : Program} (hp : Program.parse source = .ok p) :
    ∃ image, Image.ofProgram p = .ok image ∧
      ∀ console seed s, image.Reachable (State.initial console seed) s →
        ((image.step s).2.stack = (s.counter + 1) :: s.stack ↔
          (∃ statement s', image.Arrives s statement s' ∧ statement.tag = .gosub) ∧ s.stack.length < maxStack) ∧
        ((image.step s).2.stack = (s.counter + 1) :: s.stack →
          ∀ s', image.RunsAbove (s.stack.length + 1) (image.step s).2 s' →
            (s.counter + 1) :: s.stack <:+ s'.stack ∧
            ((image.step s').2.stack.length = s.stack.length →
              (image.step s').2.stack = s.stack ∧ (image.step s').2.counter = s.counter + 1 ∧
                ∃ statement s'', image.Arrives s' statement s'' ∧ statement.tag = .action .ret)) := by
  obtain ⟨-, lines, hlines⟩ := Program.parse_eq_ok_iff.1 hp
  obtain ⟨clauses, hclauses⟩ := hlines.exists_means
  obtain ⟨image, himage, -, h⟩ := hclauses.exists_image
  refine ⟨image, himage, fun console seed s hs => ?_⟩
  rw [← Machine.toState_initial] at hs
  have hlength := h.stack_length_le (Nat.zero_le _) hs
  obtain ⟨m, rfl, -⟩ := h.exists_machine hs
  refine ⟨⟨fun hpush => ?_, fun ⟨⟨statement, s', harrives, htag⟩, hroom⟩ =>
    h.stack_step_of_gosub harrives htag hroom⟩, fun hpush s' hs' => ?_⟩
  · -- Only GOSUB makes one more: what leaves the positions alone or takes one away changes their number otherwise.
    rcases h.moves m with hstay | ⟨harrives, htag, hroom, -⟩ | ⟨-, -, hrestore⟩
    · have := congrArg List.length (hpush.symm.trans hstay)
      rw [List.length_cons] at this
      omega
    · exact ⟨⟨_, _, harrives, htag⟩, by omega⟩
    · have := congrArg List.length hrestore
      rw [hpush, List.length_cons, List.length_cons] at this
      omega
  · have hm₁ : (image.step m.toState).2 = (m.step clauses).2.toState := by rw [h.step_eq]
    rw [hm₁] at hpush hs'
    generalize (m.step clauses).2 = m₁ at hpush hs'
    have hpush : m₁.stack = (m.position + 1) :: m.stack := hpush
    refine ⟨?_, fun hlength => ?_⟩
    · have hsuffix := h.isSuffix_of_runsAbove (m := m₁) (by rwa [hpush])
      rwa [hpush] at hsuffix
    · obtain ⟨hcontrol, hret⟩ := h.restores_of_runsAbove hpush hs' hlength
      exact ⟨(Prod.mk.inj hcontrol).1, (Prod.mk.inj hcontrol).2, hret⟩

/-- A subroutine that begins behind its GOSUB. -/
def Program.subroutine : List Char := "1 IF 1<2 THEN GOSUB 2\n2 RETURN\n".toList

/-- The first step of the subroutine saves a position, and the second takes it away. -/
theorem Program.exists_image_subroutine : ∃ p image, Program.parse subroutine = .ok p ∧
    Image.ofProgram p = .ok image ∧
    let s := (image.step (State.initial (Console.ofInput []) 0)).2
    s.stack = [1] ∧ (image.step s).2.stack.length = 0 := by
  have hrun : (Program.parse subroutine).toOption.any (fun p => (Image.ofProgram p).toOption.any fun image =>
      let s := (image.step (State.initial (Console.ofInput []) 0)).2
      decide (s.stack = [1] ∧ (image.step s).2.stack.length = 0)) = true := by decide +kernel
  obtain ⟨p, hp, hrun⟩ := exists_ok_of_any hrun
  obtain ⟨image, himage, hrun⟩ := exists_ok_of_any hrun
  exact ⟨p, image, hp, himage, of_decide_eq_true hrun⟩

theorem Program.gosub_return_match_subroutine : ∃ p image, Program.parse Program.subroutine = .ok p ∧
    Image.ofProgram p = .ok image ∧
    let s := (image.step (State.initial (Console.ofInput []) 0)).2
    s.stack = [1] ∧ (image.step s).2.stack = [] ∧ (image.step s).2.counter = 1 := by
  obtain ⟨p, image, hp, himage, hpush, hlength⟩ := Program.exists_image_subroutine
  obtain ⟨image', himage', hmatch⟩ := Program.gosub_return_match hp
  obtain rfl := Except.ok.inj (himage.symm.trans himage')
  obtain ⟨-, hrun⟩ := hmatch (Console.ofInput []) 0 _ .initial
  obtain ⟨hstack, hcounter, -⟩ := (hrun hpush _ .start).2 hlength
  exact ⟨p, image, hp, himage, hpush, hstack, hcounter⟩

end LineBasic

import LineBasic.Proofs.Machine.Answers

/-!
# What a failing step changes

A step that fails has come, through IF statements whose conditions hold, to a statement that fails, or to an IF
statement whose condition does. What it leaves changed is told by this statement: GOSUB may have saved a position, and
INPUT has set the variables in front of the one for which it got no number. All other statements change nothing that
can be seen, apart from the generator.

## Main definitions

* `Image.Active`: the statement that fails in a step that fails.
* `State.still`: all of a state but the generator.
* `Console.Gives`: numbers that a console gives one after another.
* `Stmt.FailsInto`: what a statement that fails leaves behind.

## Main results

* `Image.Active.unique`: a step has one active statement at most.
* `Stmt.exec_fails`: one statement.
* `Stmt.ShownIn.failsAt`: IF statements down to the active one.
* `Program.step_failed`: the steps of parsed programs.
-/

namespace LineBasic

open Answer

/-! ### The active statement -/

/-- IF statements whose conditions hold lead from one statement to another, and from one state to another. The other
statement is no IF statement, or one whose condition fails. -/
inductive Image.Active (image : Image) : (frames : Nat) → NodeId → State → NodeId → State → Prop
  | other {frames : Nat} {i : NodeId} {n : Node} {s : State} (hn : image.program.arena.nodes[i]? = some n)
      (htag : n.tag ≠ .branch) : Active image frames i s i s
  | condition {frames : Nat} {i c : NodeId} {n : Node} {h : Halt} {s s' : State}
      (hn : image.program.arena.nodes[i]? = some n) (htag : n.tag = .branch) (hlhs : n.lhs = some c)
      (hc : image.evaluate frames c s = (.error h, s')) : Active image (frames + 1) i s i s
  | branch {frames : Nat} {i c b j : NodeId} {n : Node} {v : Value} {s s' s'' : State}
      (hn : image.program.arena.nodes[i]? = some n) (htag : n.tag = .branch) (hlhs : n.lhs = some c)
      (hrhs : n.rhs = some b) (hc : image.evaluate frames c s = (.ok v, s')) (hv : v ≠ .number 0)
      (h : Active image frames b s' j s'') : Active image (frames + 1) i s j s''

theorem Image.Active.unique {image : Image} {frames : Nat} {i j k : NodeId} {s s₁ s₂ : State}
    (h₁ : image.Active frames i s j s₁) (h₂ : image.Active frames i s k s₂) : j = k ∧ s₁ = s₂ := by
  -- The tag of the node and the value of its condition decide which rule applies.
  induction h₁ with
  | other hn htag =>
    cases h₂ with
    | other => exact ⟨rfl, rfl⟩
    | condition hn' htag' =>
      obtain rfl := Option.some.inj (hn.symm.trans hn')
      exact absurd htag' htag
    | branch hn' htag' =>
      obtain rfl := Option.some.inj (hn.symm.trans hn')
      exact absurd htag' htag
  | condition hn htag hlhs hc =>
    cases h₂ with
    | other hn' htag' =>
      obtain rfl := Option.some.inj (hn.symm.trans hn')
      exact absurd htag htag'
    | condition => exact ⟨rfl, rfl⟩
    | branch hn' htag' hlhs' hrhs' hc' =>
      obtain rfl := Option.some.inj (hn.symm.trans hn')
      obtain rfl := Option.some.inj (hlhs.symm.trans hlhs')
      cases hc.symm.trans hc'
  | branch hn htag hlhs hrhs hc hv _ ih =>
    cases h₂ with
    | other hn' htag' =>
      obtain rfl := Option.some.inj (hn.symm.trans hn')
      exact absurd htag htag'
    | condition hn' htag' hlhs' hc' =>
      obtain rfl := Option.some.inj (hn.symm.trans hn')
      obtain rfl := Option.some.inj (hlhs.symm.trans hlhs')
      cases hc.symm.trans hc'
    | branch hn' htag' hlhs' hrhs' hc' hv' h₂ =>
      obtain rfl := Option.some.inj (hn.symm.trans hn')
      obtain rfl := Option.some.inj (hlhs.symm.trans hlhs')
      obtain rfl := Option.some.inj (hrhs.symm.trans hrhs')
      cases hc.symm.trans hc'
      exact ih h₂

/-! ### What statements leave behind -/

/-- All of a state but the generator. -/
def State.still (s : State) : Store × List Nat × Nat × List RuntimeError × Console :=
  (s.store, s.stack, s.counter, s.errors, s.console)

@[inherit_doc State.still]
def Machine.still (m : Machine) : Vector Word letterCount × List Nat × Nat × List RuntimeError × Console :=
  (m.store, m.stack, m.position, m.errors, m.console)

/-- A console gives numbers one after another, and becomes another one. -/
inductive Console.Gives : Console → List Int → Console → Prop
  | nil (c : Console) : Gives c [] c
  | cons {c c' c'' : Console} {n : Int} {ns : List Int} (h : c.readNumber = (.ok n, c')) (hs : Gives c' ns c'') :
      Gives c (n :: ns) c''

/-- What a statement leaves behind when it fails for some reason. -/
def Stmt.FailsInto (r : Reason) : PlainStmt → State → State → Prop
  | .print _ _ _, s, s' =>
    s'.still = s.still ∨ s'.still = { s with console.writes := s.console.writes + 1 }.still
  | .input _ v more, s, s' => ∃ done v' rest numbers c c' asked, v :: more = done ++ v' :: rest ∧
    numbers.length = done.length ∧ s.console.Gives numbers c ∧ c.readNumber = (.error (.stopped r), c') ∧
    c'.output = s.console.output ++ prompts asked ∧
    s'.still = { s with store := s.store.assigned (done.zip numbers), console := c' }.still
  | .gosub _ _, s, s' =>
    s'.still = { s with stack := if s.stack.length < maxStack then s.counter :: s.stack else s.stack }.still
  | _, s, s' => s'.still = s.still

/-! ### Prompts -/

theorem Answer.prompts_add (k asked : Nat) : prompts k ++ prompts asked = prompts (k + asked) := by
  induction k with
  | zero => rw [Nat.zero_add]; exact String.empty_append
  | succ k ih => rw [Nat.succ_add, prompts_succ, prompts_succ, String.append_assoc, ih]

namespace Console

/-- A prompt is put out, or its write fails. -/
theorem exists_prompts_of_write {c c' : Console} {r : Except WriteError Unit} (h : c.write "? " = (r, c')) :
    ∃ asked, c'.output = c.output ++ prompts asked := by
  unfold write at h
  dsimp only at h
  split at h
  · cases h
    exact ⟨0, String.append_empty.symm⟩
  · cases h
    exact ⟨1, rfl⟩

/-- Nothing but prompts is put out to get a number. -/
theorem readNumber_output (c : Console) : ∃ asked, c.readNumber.2.output = c.output ++ prompts asked := by
  fun_induction readNumber c with
  | case1 c e asked hw => exact exists_prompts_of_write hw
  | case2 c u asked hw hin => exact exists_prompts_of_write hw
  | case3 c u asked hw ch cs hin answer answered hlen =>
    obtain ⟨k, hk⟩ := exists_prompts_of_write hw
    exact ⟨k, hk⟩
  | case4 c u asked hw ch cs hin answer answered hlen n hparse =>
    obtain ⟨k, hk⟩ := exists_prompts_of_write hw
    exact ⟨k, hk⟩
  | case5 c u asked hw ch cs hin answer answered hlen hparse ih =>
    obtain ⟨k, hk⟩ := exists_prompts_of_write hw
    obtain ⟨l, hl⟩ := ih
    refine ⟨k + l, hl.trans ?_⟩
    show asked.output ++ prompts l = _
    rw [hk, String.append_assoc, prompts_add]

theorem Gives.output {c c' : Console} {ns : List Int} (h : c.Gives ns c') :
    ∃ asked, c'.output = c.output ++ prompts asked := by
  induction h with
  | nil c => exact ⟨0, String.append_empty.symm⟩
  | @cons c c' c'' n ns h _ ih =>
    obtain ⟨k, hk⟩ := c.readNumber_output
    obtain ⟨asked, hasked⟩ := ih
    rw [h] at hk
    exact ⟨k + asked, by rw [hasked, hk, String.append_assoc, prompts_add]⟩

end Console

/-! ### Statements that fail -/

/-- INPUT that fails has set the variables in front of one for which it got no number. -/
theorem Execution.forM_ask_error {vs : List Letter} {s s' : State} {h : Halt}
    (hfail : (vs.forM Execution.ask) s = (.error h, s')) : ∃ done v rest numbers c c', vs = done ++ v :: rest ∧
      numbers.length = done.length ∧ s.console.Gives numbers c ∧ c.readNumber = (.error h, c') ∧
      s' = { s with store := s.store.assigned (done.zip numbers), console := c' } := by
  induction vs generalizing s with
  | nil => cases hfail
  | cons v vs ih =>
    rw [forM_ask_cons] at hfail
    rcases hread : s.console.readNumber with ⟨e | n, c⟩
    · rw [hread] at hfail
      cases hfail
      exact ⟨[], v, vs, [], s.console, c, rfl, rfl, .nil _, hread, rfl⟩
    · rw [hread] at hfail
      obtain ⟨done, v', rest, numbers, c', c'', rfl, hlength, hgives, herror, rfl⟩ := ih hfail
      exact ⟨v :: done, v', rest, n :: numbers, c', c'', rfl, congrArg (· + 1) hlength, .cons hread hgives, herror, rfl⟩

/-- A computation that fails leaves all but the generator alone. -/
def Run.FailsStill {α : Type} (y : Run α) : Prop := ∀ m h m', y m = (.error h, m') → m'.still = m.still

namespace Run.FailsStill

variable {α β : Type} {y : Run α}

theorem of_leaves (h : Run.Leaves Machine.still y) : FailsStill y := by
  intro m halt m' hfail
  have hstill := h m
  rwa [hfail] at hstill

theorem bind {f : α → Run β} (hy : Run.Leaves Machine.still y) (hf : ∀ a, FailsStill (f a)) :
    FailsStill (y >>= f) := by
  intro m halt m' hfail
  have hstill := hy m
  rw [bind_apply] at hfail
  rcases hresult : y m with ⟨e | a, m₁⟩
  · rw [hresult] at hfail hstill
    cases hfail
    exact hstill
  · rw [hresult] at hfail hstill
    exact (hf a m₁ halt m' hfail).trans hstill

theorem modify (f : Machine → Machine) : FailsStill (modify f : Run Unit) := fun _ _ _ h => by cases h

theorem stop (r : Reason) : FailsStill (Run.stop r : Run α) := of_leaves (.stop r)

theorem jump (table : Int → Option Nat) (w : Word) : FailsStill (Run.jump table w) := by
  rw [Run.jump]
  split
  · exact modify _
  · exact stop _

theorem restore : FailsStill Run.restore := by
  intro m h m' hfail
  obtain ⟨store, stack, position, errors, console, generator⟩ := m
  cases stack with
  | nil =>
    cases hfail
    rfl
  | cons position stack => cases hfail

end Run.FailsStill

/-- A write that fails is counted. -/
theorem Console.print_error {c c' : Console} {text : String} {h : Halt} (hfail : c.print text = (.error h, c')) :
    c' = { c with writes := c.writes + 1 } := by
  unfold print write at hfail
  dsimp only at hfail
  split at hfail
  · cases hfail
  · rename_i e d hwrite
    split at hwrite
    · cases hwrite
      cases hfail
      rfl
    · cases hwrite

theorem Run.put_error {m m' : Machine} {text : String} {h : Halt} (hfail : Run.put text m = (.error h, m')) :
    m' = { m with console.writes := m.console.writes + 1 } := by
  rw [put] at hfail
  rcases hprint : m.console.print text with ⟨e | u, c⟩
  · rw [hprint] at hfail
    cases hfail
    rw [Console.print_error hprint]
  · rw [hprint] at hfail
    cases hfail

section Statements

variable {r : Reason} {m m' : Machine}

theorem Machine.exists_generator (h : m'.still = m.still) : ∃ g, m' = { m with generator := g } := by
  obtain ⟨store, stack, position, errors, console, generator⟩ := m'
  cases h
  exact ⟨generator, rfl⟩

theorem Machine.toState_still (h : m'.still = m.still) : m'.toState.still = m.toState.still := by
  obtain ⟨g, rfl⟩ := exists_generator h
  rfl

/-- The variables of INPUT are asked for on both sides. -/
theorem Mirrors.forM_ask (vs : List Letter) :
    Mirrors (vs.forM Execution.ask) (vs.forM fun v => do Run.update v (← Run.ask)) id :=
  Mirrors.forM (List.forall₂_same.2 fun _ _ => rfl) fun v _ heq => by
    subst heq
    exact Mirrors.ask.bind fun w => Mirrors.assign v w

/-- What a statement leaves behind that fails and is no IF statement. -/
theorem Stmt.exec_fails (table : Int → Option Nat) {s : PlainStmt} (hs : s.nodeTag ≠ .branch)
    (hstack : m.stack.length ≤ maxStack) (h : s.exec table m = (.error (.stopped r), m')) :
    s.FailsInto r m.toState m'.toState := by
  have value {l : Level} (e : PlainExpr l) : Run.Leaves Machine.still e.value := e.leaves_value fun _ _ => rfl
  cases s with
  | print mark item more =>
    have hitems : Run.Leaves Machine.still ((item :: more).mapM Item.printed) :=
      .mapM _ fun item => item.leaves_printed fun _ _ => rfl
    have hstill := hitems m
    rw [exec, bind_apply] at h
    -- Either an item has no value, or all have one and it is the line that is refused.
    rcases hresult : (item :: more).mapM Item.printed m with ⟨e | texts, m₁⟩
    · rw [hresult] at h hstill
      cases h
      exact .inl (Machine.toState_still hstill)
    · rw [hresult] at h hstill
      obtain ⟨g, rfl⟩ := Machine.exists_generator hstill
      obtain rfl := Run.put_error h
      exact .inr rfl
  | input mark v more =>
    have hmirrors := Mirrors.forM_ask (v :: more) m
    have hrun : ((v :: more).forM fun v => do Run.update v (← Run.ask) : Run Unit) m = _ := h
    rw [hrun] at hmirrors
    obtain ⟨done, v', rest, numbers, c, c', hvs, hlength, hgives, herror, hstate⟩ := Execution.forM_ask_error hmirrors
    obtain ⟨k, hk⟩ := hgives.output
    obtain ⟨l, hl⟩ := c.readNumber_output
    rw [herror] at hl
    refine ⟨done, v', rest, numbers, c, c', k + l, hvs, hlength, hgives, herror, ?_, congrArg State.still hstate⟩
    rw [hl, hk, String.append_assoc, prompts_add]
  | assign v e =>
    have hassign : Run.FailsStill ((Stmt.assign v e : PlainStmt).exec table) := .bind (value e) fun w => .modify _
    exact Machine.toState_still (hassign m _ m' h)
  | branch mark e₁ r' relation e₂ body => exact absurd rfl hs
  | goto mark e =>
    have hgoto : Run.FailsStill ((Stmt.goto mark e : PlainStmt).exec table) := .bind (value e) (.jump table)
    exact Machine.toState_still (hgoto m _ m' h)
  | gosub mark e =>
    have hjump : Run.FailsStill (e.value >>= Run.jump table) := .bind (value e) (.jump table)
    rw [exec, bind_apply, Run.save_apply] at h
    rw [FailsInto, m.toState_stack]
    by_cases hfull : m.stack.length = maxStack
    · rw [if_pos hfull] at h
      rw [if_neg (Nat.not_lt.2 (Nat.le_of_eq hfull.symm))]
      cases h
      rfl
    · -- The position is saved before the target is looked at.
      rw [if_neg hfull] at h
      rw [if_pos (Nat.lt_of_le_of_ne hstack hfull)]
      exact Machine.toState_still (hjump _ _ m' h)
  | action mark a =>
    cases a with
    | ret => exact Machine.toState_still (Run.FailsStill.restore m _ m' h)
    | halt => cases h
    | clear | list | run =>
      cases h
      rfl

end Statements

theorem State.exists_generator {s s' : State} (h : s'.still = s.still) : ∃ g, s' = { s with generator := g } := by
  obtain ⟨store, stack, counter, errors, console, generator⟩ := s'
  cases h
  exact ⟨generator, rfl⟩

namespace Stmt.FailsInto

variable {r : Reason} {s : PlainStmt} {state state' : State}

/-- What a statement leaves behind does not depend on the generator. -/
theorem of_generator {g : Generator} (h : s.FailsInto r { state with generator := g } state') :
    s.FailsInto r state state' := by
  cases s <;> exact h

/-- What a statement leaves behind does not depend on the errors of other lines. -/
theorem withErrors (h : s.FailsInto r state state') (errors : List RuntimeError) :
    s.FailsInto r { state with errors := errors } { state' with errors := errors } := by
  have still {t t' : State} (h : t'.still = t.still) :
      { t' with errors := errors }.still = { t with errors := errors }.still := by
    obtain ⟨g, rfl⟩ := State.exists_generator h
    rfl
  cases s with
  | print mark item more => exact h.imp still still
  | input mark v more =>
    obtain ⟨done, v', rest, numbers, c, c', asked, hvs, hlength, hgives, herror, houtput, h⟩ := h
    exact ⟨done, v', rest, numbers, c, c', asked, hvs, hlength, hgives, herror, houtput, still h⟩
  | assign _ _ | branch _ _ _ _ _ _ | goto _ _ | gosub _ _ | action _ _ => exact still h

/-- No statement that fails goes anywhere, or has to do with the errors of other lines. -/
theorem counter_errors_eq (h : s.FailsInto r state state') :
    state'.counter = state.counter ∧ state'.errors = state.errors := by
  have still {t t' : State} (h : t'.still = t.still) : t'.counter = t.counter ∧ t'.errors = t.errors := by
    obtain ⟨g, rfl⟩ := State.exists_generator h
    exact ⟨rfl, rfl⟩
  cases s with
  | print mark item more => exact h.elim still still
  | input mark v more =>
    obtain ⟨done, v', rest, numbers, c, c', asked, -, -, -, -, -, h⟩ := h
    obtain ⟨hcounter, herrors⟩ := still h
    exact ⟨hcounter, herrors⟩
  | gosub mark e =>
    rw [FailsInto] at h
    obtain ⟨hcounter, herrors⟩ := still h
    exact ⟨hcounter, herrors⟩
  | assign _ _ | branch _ _ _ _ _ _ | goto _ _ | action _ _ => exact still h

end Stmt.FailsInto

section Steps

variable {image : Image} {table : Int → Option Nat}

/-- The statement at a node fails, and its active statement tells what is left behind. -/
def Image.FailsAt (image : Image) (frames : Nat) (i : NodeId) (r : Reason) (s s' : State) : Prop :=
  ∃ (j : NodeId) (statement : PlainStmt) (t : TokenId) (s₁ : State), image.Active frames i s j s₁ ∧
    statement.ShownIn image.program.lexemes image.program.arena t j ∧ statement.FailsInto r s s'

/-- A statement that is no IF statement is the active one itself. -/
theorem Stmt.ShownIn.failsAt_self {s : PlainStmt} {t : TokenId} {i : NodeId} {r : Reason} {m m' : Machine}
    (hs : s.ShownIn image.program.lexemes image.program.arena t i) (hbranch : s.nodeTag ≠ .branch)
    (hstack : m.stack.length ≤ maxStack) (h : s.exec table m = (.error (.stopped r), m')) (frames : Nat) :
    image.FailsAt frames i r m.toState m'.toState := by
  obtain ⟨n, hn, htag⟩ := hs.exists_tag
  exact ⟨i, s, t, m.toState, .other hn.2 (htag ▸ hbranch), hs, s.exec_fails table hbranch hstack h⟩

/-- A statement that fails has an active statement, which tells what is left behind. -/
theorem Stmt.ShownIn.failsAt {s : PlainStmt} {t : TokenId} {i : NodeId} {frames : Nat} {r : Reason}
    {m m' : Machine} (hs : s.ShownIn image.program.lexemes image.program.arena t i)
    (hframes : 6 * s.nesting + 2 ≤ frames) (h : s.exec table m = (.error (.stopped r), m'))
    (hstack : m.stack.length ≤ maxStack) : image.FailsAt frames i r m.toState m'.toState := by
  induction s generalizing t i frames m with
  | branch mark e₁ r' relation e₂ body ih =>
    obtain ⟨f, tb, c, b, rfl, hi, hmirrors, hb, hbody⟩ := hs.mirrors_condition hframes
    have hcondition : image.evaluate f c m.toState = _ := hmirrors m
    have hstill : (r'.test e₁ e₂ m).2.still = m.still := r'.leaves_test (fun _ _ => rfl) e₁ e₂ m
    rw [exec, bind_apply] at h
    rcases hresult : r'.test e₁ e₂ m with ⟨e | holds, m₁⟩
    · rw [hresult] at h hcondition hstill
      cases h
      exact ⟨i, _, t, m.toState, .condition hi.2 rfl rfl hcondition, hs, Machine.toState_still hstill⟩
    · rw [hresult] at h hcondition hstill
      cases holds with
      | false => cases h
      | true =>
        -- The condition has left all but the generator alone, so what the body changes is all that is changed.
        obtain ⟨g, rfl⟩ := Machine.exists_generator hstill
        obtain ⟨j, statement, t', s₁, hactive, hj, hfails⟩ := ih hb hbody h hstack
        exact ⟨j, statement, t', s₁, .branch hi.2 rfl rfl rfl hcondition (by decide) hactive, hj, hfails.of_generator⟩
  | _ => exact hs.failsAt_self (by simp [nodeTag]) hstack h frames

end Steps

/-- In a parsed program, a step from a reachable state that fails has an active statement, and no other. The position
has moved on by one, and the error is recorded with the token of the line's statement. The active statement tells all
else: PRINT puts out nothing, INPUT has set the variables in front of the one for which it got no number, and GOSUB has
saved the position if there was room. -/
theorem Program.step_failed {source : List Char} {p : Program} (hp : Program.parse source = .ok p) :
    ∃ image, Image.ofProgram p = .ok image ∧ ∀ console seed s, image.Reachable (State.initial console seed) s →
      ∀ e s', image.step s = (.failed e, s') →
        s'.counter = s.counter + 1 ∧ s'.errors = s.errors ++ [e] ∧
        ∃ line n b body j s₁ t, ∃ statement : PlainStmt,
          image.lines[s.counter]? = some line ∧ p.arena.nodes[line]? = some n ∧ n.lhs = some b ∧
          p.arena.nodes[b]? = some body ∧ e.token = body.token ∧
          image.Active (maxFrames - 1) b { s with counter := s.counter + 1 } j s₁ ∧
          (∀ k s₂, image.Active (maxFrames - 1) b { s with counter := s.counter + 1 } k s₂ → k = j) ∧
          statement.ShownIn p.lexemes p.arena t j ∧
          statement.FailsInto e.reason { s with counter := s.counter + 1, errors := s.errors ++ [e] } s' := by
  obtain ⟨clauses, image, -, himage, rfl, hrep⟩ := Program.exists_image_of_parse hp
  refine ⟨image, himage, fun console seed s hs e s' hstep => ?_⟩
  rw [← Machine.toState_initial] at hs
  have hstack := hrep.stack_length_le (Nat.zero_le _) hs
  obtain ⟨m, rfl, -⟩ := hrep.exists_machine hs
  rw [hrep.step_eq, Machine.step] at hstep
  cases hc : clauses[m.position]? with
  | none =>
    rw [hc] at hstep
    cases hstep
  | some c =>
    rw [hc] at hstep
    dsimp only at hstep
    obtain ⟨line, b, n, hline, hn, hlhs, -, hb⟩ := hrep.exists_line hc
    obtain ⟨body, hbody, htoken⟩ := hb.exists_token
    rcases hexec : c.line.body.exec (lastNumbered · clauses) { m with position := m.position + 1 } with ⟨h | u, m'⟩
    · rw [hexec] at hstep
      cases h with
      | stopped r =>
        cases hstep
        dsimp only
        have hnesting : c.line.body.nesting ≤ 64 := hrep.nesting c (List.mem_of_getElem? hc)
        -- The frames that are left to the statement do for all levels of nesting.
        obtain ⟨j, statement, t, s₁, hactive, hj, hfails⟩ :=
          hb.failsAt (show 6 * c.line.body.nesting + 2 ≤ maxFrames - 1 by rw [maxFrames]; omega) hexec hstack
        obtain ⟨hcounter, herrors⟩ := hfails.counter_errors_eq
        have herrors : m'.errors = m.errors := herrors
        refine ⟨hcounter, congrArg (· ++ _) herrors, line, n, b, body, j, s₁, t, statement, hline, hn.2, hlhs, hbody.2,
          htoken.symm, hactive, fun k s₂ hk => (hk.unique hactive).1, hj, ?_⟩
        rw [herrors]
        exact hfails.withErrors _
      | aborted a => cases hstep
    · rw [hexec] at hstep
      cases hstep

/-- INPUT behind a condition that holds. -/
def Program.askBehindTest : List Char := "IF 1<2 THEN INPUT A,B\n".toList

/-- One line that is rejected and one number. -/
def Console.oneNumber : Console := .ofInput "x\n5\n".toList

/-- The first variable has been set when there is no line for the second one. -/
theorem Program.step_failed_askBehindTest : ∃ p image e s', Program.parse askBehindTest = .ok p ∧
    Image.ofProgram p = .ok image ∧
    image.Reachable (.initial Console.oneNumber 0) (.initial Console.oneNumber 0) ∧
    image.step (.initial Console.oneNumber 0) = (.failed e, s') ∧ s'.errors = [e] ∧
    s'.store.get ⟨0, by decide⟩ = .number 5 ∧ s'.console.output = "? ? ? " ∧
    ∃ statement : PlainStmt,
      statement.FailsInto e.reason { State.initial Console.oneNumber 0 with counter := 1, errors := [e] } s' := by
  have hrun : (Program.parse askBehindTest).toOption.any (fun p => (Image.ofProgram p).toOption.any fun image =>
      match image.step (.initial Console.oneNumber 0) with
      | (.failed _, s) => decide (s.store.get ⟨0, by decide⟩ = .number 5 ∧ s.console.output = "? ? ? ")
      | (.more, _) | (.finished, _) | (.aborted _, _) => false) = true := by decide +kernel
  obtain ⟨p, hp, hrun⟩ := exists_ok_of_any hrun
  obtain ⟨image, himage, hrun⟩ := exists_ok_of_any hrun
  obtain ⟨image', himage', hfailed⟩ := Program.step_failed hp
  obtain rfl := Except.ok.inj (himage.symm.trans himage')
  rcases hstep : image.step (.initial Console.oneNumber 0) with ⟨o, s'⟩
  rw [hstep] at hrun
  cases o with
  | failed e =>
    obtain ⟨hstore, houtput⟩ := of_decide_eq_true hrun
    obtain ⟨-, herrors, -, -, -, -, -, -, -, statement, -, -, -, -, -, -, -, -, hfails⟩ :=
      hfailed Console.oneNumber 0 _ .initial e s' hstep
    exact ⟨p, image, e, s', hp, himage, .initial, hstep, herrors, hstore, houtput, statement, hfails⟩
  | _ => cases hrun

end LineBasic

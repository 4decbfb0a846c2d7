import LineBasic.Proofs.Machine.Structural

/-!
# How statements halt

A statement of the structural machine that halts has a reason that any statement can have, or it has led, through
IF statements whose tests hold, to a statement that halts in a way of its own: RETURN without a saved position,
GOSUB with too many of them, or a statement that is not implemented.

## Main definitions

* `Halt.Common`: the ways in which any statement can halt.
* `Run.Common`: a computation that halts in no other way and leaves the failure of writes as it is.
* `Stmt.Reaches`: the statements to which IF statements lead.
* `Stmt.HaltsWith`: the ways of its own in which a statement halts.

## Main results

* `Expr.common_value`: expressions halt in common ways.
* `Stmt.exec_halts`: how statements halt.
-/

namespace LineBasic

/-- A reason that any statement can have. -/
def Reason.Common : Reason → Prop
  | .mathOverflow | .divisionByZero | .missingLine _ | .ioFailed _ => True
  | .notImplemented | .returnWithoutGosub | .tooManyGosubs => False

/-- A way in which any statement can halt, given how writes fail. -/
def Halt.Common (failure : WriteError) : Halt → Prop
  | .stopped r => r.Common
  | .aborted (.fault f) => f = .noDraw
  | .aborted .outOfMemory => failure = .memory

/-! ### The console -/

namespace Console

theorem failure_of_write {text : String} {c c' : Console} {r : Except WriteError Unit}
    (h : c.write text = (r, c')) : c'.failure = c.failure := by
  unfold write at h
  dsimp only at h
  split at h
  · cases h
    rfl
  · cases h
    rfl

theorem eq_failure_of_write {text : String} {c c' : Console} {e : WriteError}
    (h : c.write text = (.error e, c')) : e = c.failure := by
  unfold write at h
  dsimp only at h
  split at h
  · cases h
    rfl
  · cases h

theorem common_ofWriteError (e : WriteError) : (Halt.ofWriteError e).Common e := by
  cases e with
  | device => trivial
  | refused => trivial
  | memory => rfl

theorem print_common (text : String) (c : Console) : (c.print text).2.failure = c.failure ∧
    ∀ h, (c.print text).1 = .error h → h.Common c.failure := by
  unfold print
  split
  · rename_i u c' hw
    exact ⟨failure_of_write hw, fun h hh => by cases hh⟩
  · rename_i e c' hw
    refine ⟨failure_of_write hw, fun h hh => ?_⟩
    cases hh
    rw [← eq_failure_of_write hw]
    exact common_ofWriteError e

theorem readNumber_common (c : Console) : c.readNumber.2.failure = c.failure ∧
    ∀ h, c.readNumber.1 = .error h → h.Common c.failure := by
  fun_induction readNumber c with
  | case1 c e asked hw =>
    refine ⟨failure_of_write hw, fun h hh => ?_⟩
    cases hh
    rw [← eq_failure_of_write hw]
    exact common_ofWriteError e
  | case2 c u asked hw hin =>
    refine ⟨failure_of_write hw, fun h hh => ?_⟩
    cases hh
    trivial
  | case3 c u asked hw ch cs hin answer answered hlen =>
    have hasked : asked.failure = c.failure := failure_of_write hw
    refine ⟨hasked, fun h hh => ?_⟩
    cases hh
    trivial
  | case4 c u asked hw ch cs hin answer answered hlen n hparse =>
    have hasked : asked.failure = c.failure := failure_of_write hw
    exact ⟨hasked, fun h hh => by cases hh⟩
  | case5 c u asked hw ch cs hin answer answered hlen hparse ih =>
    -- The question is put again, to a console on which writes fail as before.
    have hasked : asked.failure = c.failure := failure_of_write hw
    exact hasked ▸ ih

end Console

/-! ### Computations that halt in common ways -/

/-- The computation leaves the failure of writes as it is and halts in no other than common ways. -/
def Run.Common {α : Type} (y : Run α) : Prop :=
  ∀ m : Machine, (y m).2.console.failure = m.console.failure ∧
    ∀ h, (y m).1 = .error h → h.Common m.console.failure

namespace Run.Common

variable {α β : Type}

theorem pure (a : α) : Run.Common (Pure.pure a : Run α) := fun _ => ⟨rfl, fun h hh => by cases hh⟩

theorem bind {y : Run α} {f : α → Run β} (hy : Run.Common y) (hf : ∀ a, Run.Common (f a)) :
    Run.Common (y >>= f) := by
  intro m
  obtain ⟨hfailure, hhalt⟩ := hy m
  rw [bind_apply]
  generalize y m = result at hfailure hhalt
  rcases result with ⟨e | a, m'⟩
  · refine ⟨hfailure, fun h hh => hhalt h ?_⟩
    cases hh
    rfl
  · dsimp only at hfailure ⊢
    rw [← hfailure]
    exact hf a m'

theorem mapM {ι : Type} {f : ι → Run α} {as : List ι} (h : ∀ a ∈ as, Run.Common (f a)) :
    Run.Common (as.mapM f) := by
  induction as with
  | nil => exact pure []
  | cons a as ih =>
    rw [List.mapM_cons]
    obtain ⟨ha, has⟩ := List.forall_mem_cons.1 h
    exact ha.bind fun b => (ih has).bind fun bs => pure (b :: bs)

theorem forM {ι : Type} {f : ι → Run Unit} (as : List ι) (h : ∀ a, Run.Common (f a)) :
    Run.Common (as.forM f) := by
  induction as with
  | nil => exact pure ()
  | cons a as ih => exact (h a).bind fun _ => ih

theorem stop {r : Reason} (hr : r.Common) : Run.Common (Run.stop r : Run α) := by
  intro m
  refine ⟨rfl, fun h hh => ?_⟩
  cases hh
  exact hr

theorem require {x : Except Reason α} (h : ∀ r, x = .error r → r.Common) : Run.Common (Run.require x) := by
  cases x with
  | error r => exact stop (h r rfl)
  | ok a => exact pure a

theorem random (limit : Word) : Run.Common (Run.random limit) := by
  intro m
  rw [Run.random]
  split
  · exact ⟨rfl, fun h hh => by cases hh⟩
  · refine ⟨rfl, fun h hh => ?_⟩
    cases hh
    rfl

theorem put (text : String) : Run.Common (Run.put text) := fun m => m.console.print_common text

theorem ask : Run.Common Run.ask := by
  intro m
  obtain ⟨hfailure, hhalt⟩ := m.console.readNumber_common
  rw [Run.ask]
  split
  · rename_i n c hread
    rw [hread] at hfailure
    exact ⟨hfailure, fun h hh => by cases hh⟩
  · rename_i e c hread
    rw [hread] at hfailure hhalt
    refine ⟨hfailure, fun h hh => hhalt h ?_⟩
    cases hh
    rfl

theorem modify {f : Machine → Machine} (h : ∀ m, (f m).console = m.console) :
    Run.Common (modify f : Run Unit) :=
  fun m => ⟨congrArg Console.failure (h m), fun h hh => by cases hh⟩

theorem load (v : Letter) : Run.Common (Run.load v) := fun _ => ⟨rfl, fun h hh => by cases hh⟩

theorem jump (table : Int → Option Nat) (n : Word) : Run.Common (Run.jump table n) := by
  rw [Run.jump]
  split
  · exact modify fun _ => rfl
  · exact stop trivial

end Run.Common

/-! ### Expressions -/

theorem Word.common_of_checked {n : Int} {r : Reason} (h : Word.checked n = .error r) : r.Common := by
  unfold Word.checked at h
  split at h
  · cases h
  · cases h
    trivial

theorem Word.common_of_remainder {a b : Word} {r : Reason} (h : a.remainder b = .error r) : r.Common := by
  unfold Word.remainder at h
  split at h
  · cases h
    trivial
  · cases h

theorem Word.common_of_scale {o : Scale} {a b : Word} {r : Reason} (h : Word.scale o a b = .error r) :
    r.Common := by
  cases o with
  | times => exact common_of_checked h
  | _ =>
    simp only [scale] at h
    split at h
    · cases h
      trivial
    · exact common_of_checked h

theorem Word.common_of_add {s : Sign} {a b : Word} {r : Reason} (h : Word.add s a b = .error r) : r.Common := by
  cases s with
  | plus => exact common_of_checked h
  | minus => exact common_of_checked h

theorem Expr.common_value {l : Level} (e : PlainExpr l) : Run.Common e.value := by
  induction e with
  | var v => exact .load v
  | number n => exact .pure _
  | group e ih => exact ih
  | abs _ e ih => exact ih.bind fun w => .require fun _ => Word.common_of_checked
  | rnd _ e ih => exact ih.bind fun w => .random w
  | mod _ e₁ e₂ ih₁ ih₂ =>
    exact ih₁.bind fun w₁ => ih₂.bind fun w₂ => .require fun _ => Word.common_of_remainder
  | factor a ih => exact ih
  | scale p o a ihp iha => exact ihp.bind fun w₁ => iha.bind fun w₂ => .require fun _ => Word.common_of_scale
  | signed s p ih =>
    cases s with
    | plus => exact ih
    | minus => exact ih.bind fun w => .require fun _ => Word.common_of_checked
  | add e s p ihe ihp => exact ihe.bind fun w₁ => ihp.bind fun w₂ => .require fun _ => Word.common_of_add

theorem Item.common_printed (item : PlainItem) : Run.Common item.printed := by
  cases item with
  | text s => exact .pure _
  | value e => exact e.common_value.bind fun w => .pure _

theorem Comparison.common_test (r : Comparison) (e₁ e₂ : PlainExpr .sum) : Run.Common (r.test e₁ e₂) :=
  e₁.common_value.bind fun _ => e₂.common_value.bind fun _ => .pure _

/-! ### Statements -/

theorem Run.save_apply (m : Machine) : Run.save m =
    if m.stack.length = maxStack then (.error (.stopped .tooManyGosubs), m)
    else (.ok (), { m with stack := m.position :: m.stack }) := by
  show (if m.stack.length = maxStack then Run.stop .tooManyGosubs
    else modify fun m => { m with stack := m.position :: m.stack } : Run Unit) m = _
  split
  · rfl
  · rfl

/-- IF statements whose tests hold lead from one statement to another, and from one state to another. -/
inductive Stmt.Reaches : PlainStmt → Machine → PlainStmt → Machine → Prop
  | here (s : PlainStmt) (m : Machine) : Reaches s m s m
  | branch {e₁ e₂ : PlainExpr .sum} {r : Comparison} {body s : PlainStmt} {m m' m'' : Machine}
      (htest : r.test e₁ e₂ m = (.ok true, m')) (h : Reaches body m' s m'') :
      Reaches (.branch () e₁ r () e₂ body) m s m''

/-- The ways of its own in which a statement halts. -/
def Stmt.HaltsWith : PlainStmt → Machine → Halt → Prop
  | .action _ .ret, m, h => h = .stopped .returnWithoutGosub ∧ m.stack = []
  | .gosub _ _, m, h => h = .stopped .tooManyGosubs ∧ m.stack.length = maxStack
  | .action _ a, _, h => h = .stopped .notImplemented ∧ a ∈ [.clear, .list, .run]
  | _, _, _ => False

/-- A statement leaves the failure of writes as it is. If it halts, it does so in a common way, or it has led to a
statement that halts in a way of its own. -/
theorem Stmt.exec_halts (table : Int → Option Nat) (s : PlainStmt) (m : Machine) :
    (s.exec table m).2.console.failure = m.console.failure ∧
      ∀ h, (s.exec table m).1 = .error h →
        h.Common m.console.failure ∨ ∃ s' m', s.Reaches m s' m' ∧ s'.HaltsWith m' h := by
  have hcommon : ∀ {y : Run Unit}, Run.Common y → (y m).2.console.failure = m.console.failure ∧
      ∀ h, (y m).1 = .error h →
        h.Common m.console.failure ∨ ∃ s' m', s.Reaches m s' m' ∧ s'.HaltsWith m' h :=
    fun hy => ⟨(hy m).1, fun h hh => .inl ((hy m).2 h hh)⟩
  -- Only IF runs another statement, in the state that its test leaves behind.
  induction s generalizing m with
  | print mark item more =>
    exact hcommon (.bind (.mapM fun item _ => item.common_printed) fun _ => .put _)
  | input mark v more =>
    exact hcommon (.forM _ fun v => .bind .ask fun _ => .modify fun _ => rfl)
  | assign v e => exact hcommon (.bind e.common_value fun _ => .modify fun _ => rfl)
  | branch mark e₁ r relation e₂ body ih =>
    obtain ⟨hfailure, hhalt⟩ := r.common_test e₁ e₂ m
    rw [exec, bind_apply]
    generalize htest : r.test e₁ e₂ m = result at hfailure hhalt
    rcases result with ⟨e | holds, m'⟩
    · refine ⟨hfailure, fun h hh => .inl (hhalt h ?_)⟩
      cases hh
      rfl
    · cases holds with
      | false => exact ⟨hfailure, fun h hh => by cases hh⟩
      | true =>
        obtain ⟨hfailure', hhalt'⟩ := ih m' fun hy => ⟨(hy m').1, fun h hh => .inl ((hy m').2 h hh)⟩
        refine ⟨hfailure'.trans hfailure, fun h hh => ?_⟩
        rcases hhalt' h hh with hhalt' | ⟨s', m'', hreach, hs'⟩
        · exact .inl (hfailure ▸ hhalt')
        · exact .inr ⟨s', m'', .branch htest hreach, hs'⟩
  | goto mark e => exact hcommon (.bind e.common_value fun w => .jump table w)
  | gosub mark e =>
    rw [exec, bind_apply, Run.save_apply]
    by_cases hfull : m.stack.length = maxStack
    · rw [if_pos hfull]
      refine ⟨rfl, fun h hh => .inr ⟨_, m, .here _ m, ?_⟩⟩
      cases hh
      exact ⟨rfl, hfull⟩
    · rw [if_neg hfull]
      -- The target is evaluated after the position has been saved.
      have hjump : Run.Common (e.value >>= Run.jump table) := .bind e.common_value fun w => .jump table w
      obtain ⟨hfailure, hhalt⟩ := hjump { m with stack := m.position :: m.stack }
      exact ⟨hfailure, fun h hh => .inl (hhalt h hh)⟩
  | action mark a =>
    cases a with
    | ret =>
      obtain ⟨store, stack, position, errors, console, generator⟩ := m
      cases stack with
      | nil =>
        refine ⟨rfl, fun h hh => .inr ⟨_, _, .here _ _, ?_⟩⟩
        cases hh
        exact ⟨rfl, rfl⟩
      | cons position stack => exact ⟨rfl, fun h hh => by cases hh⟩
    | halt => exact hcommon (.modify fun _ => rfl)
    | clear | list | run =>
      refine ⟨rfl, fun h hh => .inr ⟨_, m, .here _ m, ?_⟩⟩
      cases hh
      exact ⟨rfl, by simp⟩

end LineBasic

import LineBasic.Proofs.Machine.Structural

/-!
# Computations that mirror one another

An execution on states mirrors a computation of the structural machine if both do the same to what can be seen of
the machine, and yield the same up to a change of representation. Mirroring goes through sequences, so it is
enough to show it for the small steps.

## Main definitions

* `Mirrors`: the execution does what the computation does.

## Main results

* `Mirrors.bind`, `Mirrors.mapM`: sequences.
* `Mirrors.draw`, `Mirrors.save` and so on: the small steps.
-/

namespace LineBasic

/-- The execution does to what can be seen of a machine what the computation does to the machine. -/
def Mirrors {α β : Type} (x : Execution β) (y : Run α) (f : α → β) : Prop :=
  ∀ m : Machine, x m.toState = ((y m).1.map f, (y m).2.toState)

namespace Mirrors

variable {α β γ δ : Type} {x : Execution β} {y : Run α} {f : α → β}

theorem pure (a : α) (f : α → β) : Mirrors (Pure.pure (f a)) (Pure.pure a) f := fun _ => rfl

theorem bind {x' : β → Execution δ} {y' : α → Run γ} {g : γ → δ} (h : Mirrors x y f)
    (h' : ∀ a, Mirrors (x' (f a)) (y' a) g) : Mirrors (x >>= x') (y >>= y') g := by
  intro m
  rw [bind_apply, bind_apply, h m]
  rcases y m with ⟨e | a, m'⟩
  · rfl
  · exact h' a m'

/-- A computation may change its result, too. -/
theorem follow {x' : β → Execution δ} {g : α → δ} (h : Mirrors x y f) (h' : ∀ a, x' (f a) = Pure.pure (g a)) :
    Mirrors (x >>= x') y g := by
  rw [← bind_pure y]
  refine h.bind fun a => ?_
  rw [h' a]
  exact pure a g

theorem mapM {ι κ : Type} {shown : ι → κ → Prop} {x : κ → Execution β} {y : ι → Run α} {as : List ι}
    {is : List κ} (h : List.Forall₂ shown as is) (h' : ∀ a i, a ∈ as → shown a i → Mirrors (x i) (y a) f) :
    Mirrors (is.mapM x) (as.mapM y) (List.map f) := by
  induction h with
  | nil => exact pure [] (List.map f)
  | @cons a i as is ha _ ih =>
    rw [List.mapM_cons, List.mapM_cons]
    refine (h' a i (by simp) ha).bind fun b => ?_
    refine (ih fun a i hmem => h' a i (List.mem_cons_of_mem _ hmem)).bind fun bs => ?_
    exact pure (b :: bs) (List.map f)

theorem forM {ι κ : Type} {shown : ι → κ → Prop} {x : κ → Execution Unit} {y : ι → Run Unit} {as : List ι}
    {is : List κ} (h : List.Forall₂ shown as is) (h' : ∀ a i, shown a i → Mirrors (x i) (y a) id) :
    Mirrors (is.forM x) (as.forM y) id := by
  induction h with
  | nil => exact pure () id
  | cons ha _ ih => exact (h' _ _ ha).bind fun _ => ih

theorem stop (r : Reason) (f : α → β) : Mirrors (Execution.stop r) (Run.stop r) f := fun _ => rfl

theorem require {x : Except Reason β} {y : Except Reason α} (h : x = y.map f) :
    Mirrors (Execution.require x) (Run.require y) f := by
  subst h
  cases y with
  | error r => exact stop r f
  | ok a => exact pure a f

theorem look {x : State → Execution β} {y : Machine → Run α}
    (h : ∀ m, x m.toState m.toState = ((y m m).1.map f, (y m m).2.toState)) :
    Mirrors (get >>= x) (get >>= y) f := h

theorem modify {g : State → State} {g' : Machine → Machine} (h : ∀ m, g m.toState = (g' m).toState) :
    Mirrors (modify g) (modify g') id := fun m => Prod.ext rfl (h m)

theorem get_map_toValue (store : Vector Word letterCount) (v : Letter) :
    (store.map Word.toValue).get v = (store.get v).toValue := by
  simp [Vector.get]

theorem load (v : Letter) : Mirrors (Execution.load v) (Run.load v) Word.toValue :=
  look fun m => Prod.ext (congrArg Except.ok (get_map_toValue m.store v)) rfl

theorem assign (v : Letter) (w : Word) : Mirrors (Execution.assign v w.toValue) (Run.update v w) id := by
  refine modify fun m => ?_
  simp only [Machine.toState, Vector.map_set]

theorem goTo (position : Nat) : Mirrors (Execution.goTo position) (Run.goTo position) id := modify fun _ => rfl

theorem save : Mirrors Execution.save Run.save id := by
  refine look fun m => ?_
  by_cases hfull : m.stack.length = maxStack
  · rw [m.toState_stack, if_pos hfull, if_pos hfull]
    rfl
  · rw [m.toState_stack, if_neg hfull, if_neg hfull]
    rfl

theorem restore : Mirrors Execution.restore Run.restore id := by
  refine look fun m => ?_
  obtain ⟨store, stack, position, errors, console, generator⟩ := m
  cases stack with
  | nil => rfl
  | cons position stack => rfl

theorem get_bind_apply (x : State → Execution α) (s : State) : (get >>= x) s = x s s := rfl

theorem draw_apply (limit : Nat) (s : State) : Execution.draw limit s =
    match s.generator.below limit with
    | (some n, g) => (.ok ((n : Int) + 1), { s with generator := g })
    | (none, g) => (.error (.aborted (.fault .noDraw)), { s with generator := g }) := by
  rw [Execution.draw, get_bind_apply]
  generalize s.generator.below limit = r
  rcases r with ⟨_ | n, g⟩
  · rfl
  · rfl

theorem draw (limit : Word) :
    Mirrors (Execution.draw (max 1 limit.val).toNat) (Run.random limit) Subtype.val := by
  intro m
  rw [Run.random, draw_apply, m.toState_generator]
  split
  · rename_i n g h
    split
    · rename_i n' g' h'
      rw [h] at h'
      cases h'
      rfl
    · rename_i g' h'
      rw [h] at h'
      cases h'
  · rename_i g h
    split
    · rename_i n' g' h'
      rw [h] at h'
      cases h'
    · rename_i g' h'
      rw [h] at h'
      cases h'
      rfl

theorem onConsole_apply (c : Console → Except Halt α × Console) (s : State) :
    Execution.onConsole c s = ((c s.console).1, { s with console := (c s.console).2 }) := rfl

theorem print (text : String) : Mirrors (Execution.onConsole (Console.print text)) (Run.put text) id := by
  intro m
  rw [onConsole_apply, Run.put, m.toState_console]
  rcases m.console.print text with ⟨e | u, c⟩
  · rfl
  · rfl

theorem ask : Mirrors (Execution.onConsole Console.readNumber) Run.ask Subtype.val := by
  intro m
  rw [onConsole_apply, Run.ask, m.toState_console]
  split
  · rename_i n c h
    have hn : m.console.readNumber.1 = .ok n := congrArg Prod.fst h
    have hc : m.console.readNumber.2 = c := congrArg Prod.snd h
    rw [hn, hc]
    rfl
  · rename_i e c h
    rw [h]
    rfl

end Mirrors

end LineBasic

import LineBasic.Proofs.Machine.Structural

/-!
# What computations leave alone

A computation of the structural machine leaves a part of the machine alone if the part is the same before and
after it, also when it halts. Expressions leave everything but the generator alone.

## Main definitions

* `Run.Leaves`: a part of the machine that a computation leaves alone.
* `Expr.Draws`: the expression may draw random numbers.

## Main results

* `Run.Leaves.bind`, `Run.Leaves.mapM`, `Run.Leaves.forM`: sequences.
* `Expr.leaves_value`, `Item.leaves_printed`, `Comparison.leaves_test`: expressions.
-/

namespace LineBasic

/-- The part of the machine is the same before and after the computation. -/
def Run.Leaves {α β : Type} (part : Machine → β) (y : Run α) : Prop := ∀ m, part (y m).2 = part m

namespace Run.Leaves

variable {α β γ : Type} {part : Machine → β}

theorem pure (a : α) : Leaves part (Pure.pure a : Run α) := fun _ => rfl

theorem bind {y : Run α} {f : α → Run γ} (hy : Leaves part y) (hf : ∀ a, Leaves part (f a)) :
    Leaves part (y >>= f) := by
  intro m
  have hm := hy m
  rw [bind_apply]
  generalize y m = result at hm
  rcases result with ⟨e | a, m'⟩
  · exact hm
  · exact (hf a m').trans hm

theorem mapM {ι : Type} {f : ι → Run α} (as : List ι) (h : ∀ a, Leaves part (f a)) :
    Leaves part (as.mapM f) := by
  induction as with
  | nil => exact pure []
  | cons a as ih =>
    rw [List.mapM_cons]
    exact (h a).bind fun b => ih.bind fun bs => pure (b :: bs)

theorem forM {ι : Type} {f : ι → Run Unit} (as : List ι) (h : ∀ a, Leaves part (f a)) :
    Leaves part (as.forM f) := by
  induction as with
  | nil => exact pure ()
  | cons a as ih => exact (h a).bind fun _ => ih

theorem stop (r : Reason) : Leaves part (Run.stop r : Run α) := fun _ => rfl

theorem require (x : Except Reason α) : Leaves part (Run.require x) := by
  cases x with
  | error r => exact stop r
  | ok a => exact pure a

theorem load (v : Letter) : Leaves part (Run.load v) := fun _ => rfl

theorem modify {f : Machine → Machine} (h : ∀ m, part (f m) = part m) : Leaves part (modify f : Run Unit) := h

theorem random (h : ∀ m g, part { m with generator := g } = part m) (limit : Word) :
    Leaves part (Run.random limit) := by
  intro m
  rw [Run.random]
  split
  · exact h m _
  · exact h m _

theorem put (h : ∀ m c, part { m with console := c } = part m) (text : String) : Leaves part (Run.put text) :=
  fun m => h m _

theorem ask (h : ∀ m c, part { m with console := c } = part m) : Leaves part Run.ask := by
  intro m
  rw [Run.ask]
  split
  · exact h m _
  · exact h m _

end Run.Leaves

/-- A call of RND stands in the expression. -/
def Expr.Draws {V N M : Type} : {l : Level} → Expr V N M l → Prop
  | _, .var _ => False
  | _, .number _ => False
  | _, .group e => e.Draws
  | _, .abs _ e => e.Draws
  | _, .rnd _ _ => True
  | _, .mod _ e₁ e₂ => e₁.Draws ∨ e₂.Draws
  | _, .factor a => a.Draws
  | _, .scale p _ a => p.Draws ∨ a.Draws
  | _, .signed _ p => p.Draws
  | _, .add e _ p => e.Draws ∨ p.Draws

section Expressions

variable {β : Type} {part : Machine → β}

/-- An expression that draws no number leaves the generator alone, too. -/
theorem Expr.leaves_value_of {l : Level} {e : PlainExpr l}
    (h : e.Draws → ∀ m g, part { m with generator := g } = part m) : Run.Leaves part e.value := by
  induction e with
  | var v => exact .load v
  | number n => exact .pure _
  | group e ih => exact ih h
  | abs _ e ih => exact (ih h).bind fun w => .require _
  | rnd _ e ih => exact (ih fun _ => h trivial).bind fun w => .random (h trivial) w
  | mod _ e₁ e₂ ih₁ ih₂ => exact (ih₁ (h ∘ .inl)).bind fun w₁ => (ih₂ (h ∘ .inr)).bind fun w₂ => .require _
  | factor a ih => exact ih h
  | scale p o a ihp iha => exact (ihp (h ∘ .inl)).bind fun w₁ => (iha (h ∘ .inr)).bind fun w₂ => .require _
  | signed s p ih =>
    cases s with
    | plus => exact ih h
    | minus => exact (ih h).bind fun w => .require _
  | add e s p ihe ihp => exact (ihe (h ∘ .inl)).bind fun w₁ => (ihp (h ∘ .inr)).bind fun w₂ => .require _

theorem Expr.leaves_value (h : ∀ m g, part { m with generator := g } = part m) {l : Level} (e : PlainExpr l) :
    Run.Leaves part e.value :=
  leaves_value_of fun _ => h

theorem Item.leaves_printed (h : ∀ m g, part { m with generator := g } = part m) (item : PlainItem) :
    Run.Leaves part item.printed := by
  cases item with
  | text s => exact .pure _
  | value e => exact (e.leaves_value h).bind fun w => .pure _

theorem Comparison.leaves_test (h : ∀ m g, part { m with generator := g } = part m) (r : Comparison)
    (e₁ e₂ : PlainExpr .sum) : Run.Leaves part (r.test e₁ e₂) :=
  (e₁.leaves_value h).bind fun _ => (e₂.leaves_value h).bind fun _ => .pure _

end Expressions

end LineBasic

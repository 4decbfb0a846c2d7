import LineBasic.Proofs.Arena.Shown
import LineBasic.Proofs.Machine.Mirrors
import LineBasic.Proofs.Program.Accessors

/-!
# Evaluating trees that are shown

Evaluating the node at which a tree is shown mirrors what the structural machine does with the tree. Each level of
nesting takes six frames at most: an expression, a term and a factor stand above an operand, and a call needs
three for its arguments.

## Main definitions

* `Image.multiply`, `Image.accumulate`: how a term takes in a factor and a sum a term.
* `Image.MirrorsAt`: the evaluation of an expression, with the frames that suffice for it.

## Main results

* `Expr.ShownIn.mirrorsAt`, `Expr.WholeIn.mirrors`: expressions.
* `Stmt.ShownIn.mirrors`: statements.
-/

namespace LineBasic

open Execution
open Program (reference)

/-! ### Arithmetic -/

theorem checked_eq_map (n : Int) : LineBasic.checked n = (Word.checked n).map Subtype.val := by
  unfold LineBasic.checked Word.checked
  split
  · rfl
  · rfl

theorem checked_val (w : Word) : LineBasic.checked w.val = .ok w.val := if_pos w.property

theorem Scale.apply_val (o : Scale) (x w : Word) : o.apply x.val w.val = (Word.scale o x w).map Subtype.val := by
  cases o with
  | times => exact checked_eq_map _
  | _ =>
    simp only [Scale.apply, divide, Word.scale]
    split
    · rfl
    · exact checked_eq_map _

theorem Sign.apply_val (s : Sign) (x w : Word) : s.apply x.val w.val = (Word.add s x w).map Subtype.val := by
  cases s with
  | plus => exact checked_eq_map _
  | minus => exact checked_eq_map _

theorem remainder_val (x w : Word) : LineBasic.remainder x.val w.val = (x.remainder w).map Subtype.val := by
  unfold LineBasic.remainder Word.remainder
  split
  · rfl
  · rfl

@[simp] theorem Execution.look_ok {α : Type} (a : α) : look (.ok a) = (pure a : Execution α) := rfl

theorem applyFunction_abs (w : Word) :
    applyFunction (.builtin .abs) [w.toValue] = require ((Word.checked w.val.natAbs).map Subtype.val) := by
  rw [← checked_eq_map]
  rfl

theorem applyFunction_rnd (w : Word) :
    applyFunction (.builtin .rnd) [w.toValue] = draw (max 1 w.val).toNat := by
  simp only [applyFunction, Word.toValue, Value.toInt, Execution.look_ok, pure_bind]

theorem applyFunction_mod (x w : Word) :
    applyFunction (.builtin .mod) [x.toValue, w.toValue] = require ((x.remainder w).map Subtype.val) := by
  obtain ⟨n, hn⟩ := w
  by_cases h : n = 0
  · subst h
    rfl
  · -- The equation for other divisors needs that this one is not the pattern before it.
    have hne : Value.number n = .number 0 → False := by simpa using h
    rw [← remainder_val, Word.toValue, Word.toValue, applyFunction]
    · rfl
    · exact hne

/-! ### Expressions -/

namespace Image

variable (image : Image)

/-- A term takes in a factor. -/
def multiply (operand : NodeId → Execution Value) (product : Int) (j : NodeId) : Execution Int := do
  let v ← operand j
  let member ← look (image.program.node j)
  require (member.tag.scale.apply product (← look v.toInt))

/-- A sum takes in a term. -/
def accumulate (operand : NodeId → Execution Value) (total : Int) (j : NodeId) : Execution Int := do
  let v ← operand j
  let member ← look (image.program.node j)
  require (member.tag.sign.apply total (← look v.toInt))

variable {image} {f : Nat} {i j : NodeId} {ks : List NodeId}

theorem evaluate_number {t : TokenId} {n : Numeral} (h : LexemeAt image.program.lexemes t (·.IsNumeral n))
    (hi : image.program.arena.Has i ⟨.number, some t, none, none⟩) :
    image.evaluate (f + 1) i = pure (.number n.val) := by
  rw [evaluate_succ, evaluateWith, Program.node_eq hi.2]
  show (do return Value.number (← look (image.program.number t)) : Execution Value) = _
  rw [Program.number_eq h]
  rfl

theorem evaluate_var {t : TokenId} {v : Letter} (h : LexemeAt image.program.lexemes t (·.IsLetter v))
    (hi : image.program.arena.Has i ⟨.var, some t, none, none⟩) : image.evaluate (f + 1) i = load v := by
  rw [evaluate_succ, evaluateWith, Program.node_eq hi.2]
  show (do load (← look (image.program.letter t)) : Execution Value) = _
  rw [Program.letter_eq h]
  rfl

theorem evaluate_factor {o : Scale} (h : image.program.arena.Has i ⟨.factor o, none, some j, none⟩) :
    image.evaluate (f + 1) i = image.evaluate f j := by
  rw [evaluate_succ, evaluateWith, Program.node_eq h.2]
  rfl

theorem evaluate_term {s : Sign} (h : image.program.arena.Owns i (.term s) none ks) :
    image.evaluate (f + 1) i =
      do return .number (← ks.foldlM (image.multiply (image.evaluate f)) 1) := by
  obtain ⟨⟨tag, token, lhs, rhs⟩, hn, rfl, rfl, -, rfl⟩ := h
  rw [evaluate_succ, evaluateWith, Program.node_eq hn.2]
  rfl

theorem evaluate_expression (h : image.program.arena.Owns i .expression none ks) :
    image.evaluate (f + 1) i =
      do return .number (← ks.foldlM (image.accumulate (image.evaluate f)) 0) := by
  obtain ⟨⟨tag, token, lhs, rhs⟩, hn, rfl, rfl, -, rfl⟩ := h
  rw [evaluate_succ, evaluateWith, Program.node_eq hn.2]
  rfl

theorem evaluate_call {b : Builtin} (h : image.program.arena.Calls image.program.lexemes i b ks) :
    image.evaluate (f + 3) i = do
      let arguments ← ks.mapM (image.evaluate f)
      return .number (← applyFunction (.builtin b) arguments) := by
  obtain ⟨t, ht, ⟨tag, token, lhs, rhs⟩, hn, rfl, rfl, -, rfl⟩ := h
  obtain ⟨token, htoken, htag⟩ := Program.exists_token_tag ht
  rw [evaluate, evaluateWith, Program.node_eq hn.2, ← htag]
  show (do
    let function ← look (image.program.token t)
    _ : Execution Value) = _
  rw [htoken]
  rfl

/-- The evaluation of an expression mirrors its value if there are enough frames. -/
def MirrorsAt (image : Image) : {l : Level} → PlainExpr l → Placed l → Prop
  | .operand, e, i =>
    ∀ frames, 6 * e.nesting + 3 ≤ frames → Mirrors (image.evaluate frames i) e.value Word.toValue
  | .product, e, ks => ∀ frames, 6 * e.nesting + 4 ≤ frames →
    Mirrors (ks.foldlM (image.multiply (image.evaluate frames)) 1) e.value Subtype.val
  | .sum, e, ks => ∀ frames, 6 * e.nesting ≤ frames + 1 →
    Mirrors (ks.foldlM (image.accumulate (image.evaluate frames)) 0) e.value Subtype.val

theorem mirrors_multiply {operand : NodeId → Execution Value} {y : Run Word} {n : Node} {x : Int}
    {z : Word → Except Reason Word} (hn : image.program.node j = .ok n)
    (hy : Mirrors (operand j) y Word.toValue)
    (hz : ∀ w : Word, n.tag.scale.apply x w.val = (z w).map Subtype.val) :
    Mirrors (image.multiply operand x j) (do Run.require (z (← y))) Subtype.val := by
  rw [multiply, hn]
  exact hy.bind fun w => Mirrors.require (hz w)

theorem mirrors_accumulate {operand : NodeId → Execution Value} {y : Run Word} {n : Node} {x : Int}
    {z : Word → Except Reason Word} (hn : image.program.node j = .ok n)
    (hy : Mirrors (operand j) y Word.toValue)
    (hz : ∀ w : Word, n.tag.sign.apply x w.val = (z w).map Subtype.val) :
    Mirrors (image.accumulate operand x j) (do Run.require (z (← y))) Subtype.val := by
  rw [accumulate, hn]
  exact hy.bind fun w => Mirrors.require (hz w)

end Image

section Expressions

variable {image : Image}

theorem Word.scale_one (w : Word) : Scale.times.apply 1 w.val = .ok w.val := by
  rw [Scale.apply, Int.one_mul, checked_val]

/-- The evaluation of a whole expression, given that of its terms. -/
theorem Image.MirrorsAt.wrap {e : PlainExpr .sum} {i : NodeId} {frames : Nat}
    (h : ∀ ks, e.ShownIn image.program.lexemes image.program.arena ks → image.MirrorsAt e ks)
    (hi : e.WholeIn image.program.lexemes image.program.arena i) (hframes : 6 * e.nesting ≤ frames) :
    Mirrors (image.evaluate frames i) e.value Word.toValue := by
  obtain ⟨ks, hks, hi⟩ := hi
  obtain ⟨f, rfl⟩ : ∃ f, frames = f + 1 := by
    have hpos := e.nesting_pos
    exact ⟨frames - 1, by omega⟩
  rw [evaluate_expression hi]
  exact (h ks hks f hframes).follow fun w => rfl

theorem Image.mirrors_call_one {b : Builtin} {i j : NodeId} {frames : Nat} {y : Run Word} {z : Word → Run Word}
    (hi : image.program.arena.Calls image.program.lexemes i b [j])
    (hj : Mirrors (image.evaluate frames j) y Word.toValue)
    (hz : ∀ w : Word, Mirrors (applyFunction (.builtin b) [w.toValue]) (z w) Subtype.val) :
    Mirrors (image.evaluate (frames + 3) i) (y >>= z) Word.toValue := by
  rw [evaluate_call hi]
  simp only [List.mapM_cons, List.mapM_nil, bind_assoc, pure_bind]
  exact hj.bind fun w => (hz w).follow fun _ => rfl

theorem Image.mirrors_call_two {b : Builtin} {i j₁ j₂ : NodeId} {frames : Nat} {y₁ y₂ : Run Word}
    {z : Word → Word → Run Word} (hi : image.program.arena.Calls image.program.lexemes i b [j₁, j₂])
    (hj₁ : Mirrors (image.evaluate frames j₁) y₁ Word.toValue)
    (hj₂ : Mirrors (image.evaluate frames j₂) y₂ Word.toValue)
    (hz : ∀ w₁ w₂ : Word,
      Mirrors (applyFunction (.builtin b) [w₁.toValue, w₂.toValue]) (z w₁ w₂) Subtype.val) :
    Mirrors (image.evaluate (frames + 3) i) (do z (← y₁) (← y₂)) Word.toValue := by
  rw [evaluate_call hi]
  simp only [List.mapM_cons, List.mapM_nil, bind_assoc, pure_bind]
  exact hj₁.bind fun w₁ => hj₂.bind fun w₂ => (hz w₁ w₂).follow fun _ => rfl

theorem foldlM_concat {α β : Type} (g : β → α → Execution β) (b : β) (xs : List α) (x : α) :
    (xs ++ [x]).foldlM g b = xs.foldlM g b >>= fun b => g b x := by
  rw [List.foldlM_append]
  simp only [List.foldlM_cons, List.foldlM_nil, bind_pure]

theorem foldlM_one {α β : Type} (g : β → α → Execution β) (b : β) (x : α) : [x].foldlM g b = g b x := by
  rw [List.foldlM_cons]
  simp only [List.foldlM_nil, bind_pure]

/-- The evaluation of a factor takes one frame more than that of its operand. -/
theorem Image.MirrorsAt.factor {b : PlainExpr .operand} {o : Scale} {j k : NodeId} (hb : image.MirrorsAt b j)
    (hk : image.program.arena.Has k ⟨.factor o, none, some j, none⟩) {frames : Nat}
    (hframes : 6 * b.nesting + 4 ≤ frames) : Mirrors (image.evaluate frames k) b.value Word.toValue := by
  obtain ⟨f, rfl⟩ : ∃ f, frames = f + 1 := ⟨frames - 1, by omega⟩
  rw [evaluate_factor hk]
  exact hb f (by omega)

/-- The evaluation of a term takes one frame more than that of its factors. -/
theorem Image.MirrorsAt.term {p : PlainExpr .product} {s : Sign} {k : NodeId} {ks : List NodeId}
    (hp : image.MirrorsAt p ks) (hk : image.program.arena.Owns k (.term s) none ks) {frames : Nat}
    (hframes : 6 * p.nesting + 5 ≤ frames) : Mirrors (image.evaluate frames k) p.value Word.toValue := by
  obtain ⟨f, rfl⟩ : ∃ f, frames = f + 1 := ⟨frames - 1, by omega⟩
  rw [evaluate_term hk]
  exact (hp f (by omega)).follow fun _ => rfl

theorem Expr.ShownIn.mirrorsAt {l : Level} {e : PlainExpr l} {r : Placed l}
    (h : e.ShownIn image.program.lexemes image.program.arena r) : image.MirrorsAt e r := by
  induction e with
  | var v =>
    intro frames hframes
    obtain ⟨t, ht, hi⟩ := h
    obtain ⟨f, rfl⟩ : ∃ f, frames = f + 1 := ⟨frames - 1, by omega⟩
    rw [Image.evaluate_var ht hi]
    exact Mirrors.load v
  | number n =>
    intro frames hframes
    obtain ⟨t, ht, hi⟩ := h
    obtain ⟨f, rfl⟩ : ∃ f, frames = f + 1 := ⟨frames - 1, by omega⟩
    rw [Image.evaluate_number ht hi]
    exact Mirrors.pure (Word.ofNumeral n) Word.toValue
  | group e ih =>
    intro frames hframes
    rw [Expr.nesting] at hframes
    exact Image.MirrorsAt.wrap (fun _ => ih) h (by omega)
  | abs _ e ih =>
    intro frames hframes
    obtain ⟨j, hj, hi⟩ := h
    rw [Expr.nesting] at hframes
    obtain ⟨f, rfl⟩ : ∃ f, frames = f + 3 := ⟨frames - 3, by omega⟩
    refine Image.mirrors_call_one hi (Image.MirrorsAt.wrap (fun _ => ih) hj (by omega)) fun w => ?_
    rw [applyFunction_abs]
    exact Mirrors.require rfl
  | rnd _ e ih =>
    intro frames hframes
    obtain ⟨j, hj, hi⟩ := h
    rw [Expr.nesting] at hframes
    obtain ⟨f, rfl⟩ : ∃ f, frames = f + 3 := ⟨frames - 3, by omega⟩
    refine Image.mirrors_call_one hi (Image.MirrorsAt.wrap (fun _ => ih) hj (by omega)) fun w => ?_
    rw [applyFunction_rnd]
    exact Mirrors.draw w
  | mod _ e₁ e₂ ih₁ ih₂ =>
    intro frames hframes
    obtain ⟨j₁, j₂, hj₁, hj₂, hi⟩ := h
    rw [Expr.nesting] at hframes
    obtain ⟨f, rfl⟩ : ∃ f, frames = f + 3 := ⟨frames - 3, by omega⟩
    refine Image.mirrors_call_two hi (Image.MirrorsAt.wrap (fun _ => ih₁) hj₁ (by omega))
      (Image.MirrorsAt.wrap (fun _ => ih₂) hj₂ (by omega)) fun w₁ w₂ => ?_
    rw [applyFunction_mod]
    exact Mirrors.require rfl
  | factor b ih =>
    intro frames hframes
    obtain ⟨j, k, hj, hk, rfl⟩ := h
    -- The first factor is multiplied with one, which changes nothing.
    rw [foldlM_one, Image.multiply, Program.node_eq hk.2]
    refine (Image.MirrorsAt.factor (ih hj) hk hframes).follow fun w => ?_
    show require (Scale.times.apply 1 w.val) = _
    rw [Word.scale_one]
    rfl
  | scale p o b ihp ihb =>
    intro frames hframes
    obtain ⟨ks', j, k, hp, hj, hk, rfl⟩ := h
    rw [Expr.nesting] at hframes
    have hb : Mirrors (image.evaluate frames k) b.value Word.toValue := Image.MirrorsAt.factor (ihb hj) hk (by omega)
    rw [foldlM_concat]
    exact (ihp hp frames (by omega)).bind fun x =>
      Image.mirrors_multiply (Program.node_eq hk.2) hb fun w => o.apply_val x w
  | signed s p ih =>
    intro frames hframes
    obtain ⟨ks', k, hp, hk, rfl⟩ := h
    rw [Expr.nesting] at hframes
    have hterm : Mirrors (image.evaluate frames k) p.value Word.toValue := Image.MirrorsAt.term (ih hp) hk (by omega)
    obtain ⟨n, hn, htag, -⟩ := hk
    rw [foldlM_one]
    -- The first term is added to zero, which changes nothing, or taken from it, which may overflow.
    cases s with
    | plus =>
      rw [Image.accumulate, Program.node_eq hn.2]
      refine hterm.follow fun w => ?_
      show require (n.tag.sign.apply 0 w.val) = _
      rw [htag, NodeTag.sign, Sign.apply, Int.zero_add, checked_val]
      rfl
    | minus =>
      refine Image.mirrors_accumulate (Program.node_eq hn.2) hterm fun w => ?_
      rw [htag, NodeTag.sign, Sign.apply, Int.zero_sub, checked_eq_map]
  | add e s p ihe ihp =>
    intro frames hframes
    obtain ⟨ks₁, ks₂, k, he, hp, hk, rfl⟩ := h
    rw [Expr.nesting] at hframes
    have hterm : Mirrors (image.evaluate frames k) p.value Word.toValue :=
      Image.MirrorsAt.term (ihp hp) hk (by omega)
    obtain ⟨n, hn, htag, -⟩ := hk
    rw [foldlM_concat]
    refine (ihe he frames (by omega)).bind fun x =>
      Image.mirrors_accumulate (Program.node_eq hn.2) hterm fun w => ?_
    rw [htag]
    exact s.apply_val x w

/-- The evaluation of a whole expression mirrors its value if there are six frames for each level of nesting. -/
theorem Expr.WholeIn.mirrors {e : PlainExpr .sum} {i : NodeId} {frames : Nat}
    (h : e.WholeIn image.program.lexemes image.program.arena i) (hframes : 6 * e.nesting ≤ frames) :
    Mirrors (image.evaluate frames i) e.value Word.toValue :=
  Image.MirrorsAt.wrap (fun _ => Expr.ShownIn.mirrorsAt) h hframes

end Expressions

end LineBasic

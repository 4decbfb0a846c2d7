import LineBasic.Proofs.Arena.Layout
import LineBasic.Proofs.Machine.Evaluation
import LineBasic.Proofs.Machine.Frame
import LineBasic.Proofs.Machine.Kinds
import LineBasic.Proofs.Machine.Refinement
import LineBasic.Proofs.Program.Rendering

/-!
# Quotients and remainders

A quotient is cut off towards zero and MOD yields what it leaves of the dividend, so the two fit together: the quotient
times the divisor and the remainder add up to the dividend. The only quotient that does not fit into sixteen bits is
that of the least number and minus one; its remainder does.

## Main definitions

* `Expr.alone`: an operand as a whole expression.
* `Expr.remainder`: a call of MOD with two operands.
* `Expr.recombined`: a quotient times the divisor, and the remainder.
* `Image.ShowsTerm`: a node for a term.

## Main results

* `inRange_tdiv_iff`: when a quotient fits.
* `Expr.value_recombined`: the quotient times the divisor and the remainder.
* `Image.evaluate_quotient_remainder`: the nodes of a program.
-/

namespace LineBasic

/-! ### Numbers -/

section Numbers

variable {a b : Int}

/-- A quotient fits into sixteen bits unless the least number is divided by minus one. -/
theorem inRange_tdiv_iff (ha : InRange a) : InRange (a.tdiv b) ↔ ¬(a = -32768 ∧ b = -1) := by
  obtain ⟨hlo, hhi⟩ := ha
  constructor
  · rintro h ⟨rfl, rfl⟩
    exact absurd h (by decide)
  · intro hne
    have habs : (a.tdiv b).natAbs = a.natAbs / b.natAbs := Int.natAbs_tdiv a b
    rcases (by omega : b = 0 ∨ b = 1 ∨ b = -1 ∨ 2 ≤ b.natAbs) with rfl | rfl | rfl | hb
    · rw [Int.tdiv_zero]
      decide
    · rw [Int.tdiv_one]
      exact ⟨hlo, hhi⟩
    · rw [Int.tdiv_neg, Int.tdiv_one]
      constructor <;> omega
    · have hhalf : a.natAbs / b.natAbs ≤ a.natAbs / 2 := Nat.div_le_div_left hb (by decide)
      constructor <;> omega

/-- A remainder lies between zero and the dividend. -/
theorem tmod_between (a b : Int) : 0 ≤ a.tmod b ∧ a.tmod b ≤ a ∨ a ≤ a.tmod b ∧ a.tmod b ≤ 0 := by
  have hle : (a.tmod b).natAbs ≤ a.natAbs := Int.natAbs_tmod a b ▸ Nat.mod_le _ _
  rcases Int.le_total 0 a with h | h
  · have hpos := Int.tmod_nonneg b h
    omega
  · have hneg := Int.tmod_nonneg b (Int.neg_nonneg_of_nonpos h)
    rw [Int.neg_tmod] at hneg
    omega

/-- A quotient times the divisor lies between zero and the dividend, too. -/
theorem InRange.tdiv_mul (ha : InRange a) (b : Int) : InRange (a.tdiv b * b) := by
  obtain ⟨hlo, hhi⟩ := ha
  rw [Int.tdiv_mul_self]
  rcases tmod_between a b with h | h
  · constructor <;> omega
  · constructor <;> omega

theorem natAbs_tmod_lt (hb : b ≠ 0) : (a.tmod b).natAbs < b.natAbs := by
  rw [Int.natAbs_tmod]
  exact Nat.mod_lt _ (Int.natAbs_pos.2 hb)

/-- A remainder is zero or has the sign of the dividend. -/
theorem tmod_eq_zero_or_sign_eq (a b : Int) : a.tmod b = 0 ∨ (a.tmod b).sign = a.sign := by
  rw [Int.sign_tmod]
  split
  · rename_i hdvd
    exact .inl (Int.tmod_eq_zero_of_dvd hdvd)
  · exact .inr rfl

end Numbers

/-! ### Values -/

theorem Word.checked_of_inRange {n : Int} (h : InRange n) : Word.checked n = .ok ⟨n, h⟩ := dif_pos h

theorem Word.checked_of_not {n : Int} (h : ¬InRange n) : Word.checked n = .error .mathOverflow := dif_neg h

namespace Expr

variable {V N : Type}

/-- An operand as a whole expression. -/
def alone (x : Expr V N Unit .operand) : Expr V N Unit .sum := .ofTerms .plus (.ofFactors x []) []

/-- `MOD(x, y)`. -/
def remainder (x y : Expr V N Unit .operand) : Expr V N Unit .operand := .mod () x.alone y.alone

/-- `x / y * y + MOD(x, y)`. -/
def recombined (x y : Expr V N Unit .operand) : Expr V N Unit .sum :=
  .ofTerms .plus (.ofFactors x [(.over, y), (.times, y)]) [(.plus, .ofFactors (remainder x y) [])]

theorem nesting_remainder (x y : Expr V N Unit .operand) :
    (remainder x y).nesting = max (x.nesting + 1) (y.nesting + 1) := rfl

theorem nesting_recombined (x y : Expr V N Unit .operand) :
    (recombined x y).nesting = max (max (max x.nesting y.nesting) y.nesting + 1) ((remainder x y).nesting + 1) := rfl

/-- What further factors make of the value of a term. -/
def goOn : List (Scale × PlainExpr .operand) → Word → Run Word
  | [], w => pure w
  | (o, z) :: more, w => do goOn more (← Run.require (Word.scale o w (← z.value)))

theorem value_ofFactors (x : PlainExpr .operand) (more : List (Scale × PlainExpr .operand)) :
    (ofFactors x more).value = x.value >>= goOn more := by
  have hfold (p : PlainExpr .product) :
      (more.foldl (fun p (o, z) => .scale p o z) p).value = p.value >>= goOn more := by
    induction more generalizing p with
    | nil => exact (bind_pure _).symm
    | cons f more ih =>
      obtain ⟨o, z⟩ := f
      rw [List.foldl_cons, ih, value, bind_assoc]
      simp only [bind_assoc, goOn]
  exact hfold (.factor x)

section Operands

variable {x y : PlainExpr .operand} {m : Machine} {a b : Word}
  (hx : x.value m = (.ok a, m)) (hy : y.value m = (.ok b, m))
include hx hy

/-- A term that begins with a quotient. -/
theorem value_quotient (more : List (Scale × PlainExpr .operand)) : (ofFactors x ((.over, y) :: more)).value m =
    (Run.require (Word.scale .over a b) >>= goOn more) m := by
  rw [value_ofFactors, bind_apply, hx]
  dsimp only
  rw [goOn, bind_apply, hy]

theorem value_remainder : (remainder x y).value m = Run.require (Word.remainder a b) m := by
  show (x.value >>= fun a => y.value >>= fun b => Run.require (Word.remainder a b)) m = _
  rw [bind_apply, hx]
  dsimp only
  rw [bind_apply, hy]

theorem value_quotient_zero (more : List (Scale × PlainExpr .operand)) (hb : b.val = 0) :
    (ofFactors x ((.over, y) :: more)).value m = (.error (.stopped .divisionByZero), m) := by
  rw [value_quotient hx hy, Word.scale, if_pos hb]
  rfl

theorem value_quotient_least (more : List (Scale × PlainExpr .operand)) (ha : a.val = -32768) (hb : b.val = -1) :
    (ofFactors x ((.over, y) :: more)).value m = (.error (.stopped .mathOverflow), m) := by
  have hlarge : ¬InRange (a.val.tdiv b.val) := fun h => (inRange_tdiv_iff a.property).1 h ⟨ha, hb⟩
  rw [value_quotient hx hy, Word.scale, if_neg (by omega), Word.checked_of_not hlarge]
  rfl

theorem value_quotient_of_ne (more : List (Scale × PlainExpr .operand)) (hb : b.val ≠ 0)
    (hne : ¬(a.val = -32768 ∧ b.val = -1)) : (ofFactors x ((.over, y) :: more)).value m =
      goOn more ⟨a.val.tdiv b.val, (inRange_tdiv_iff a.property).2 hne⟩ m := by
  rw [value_quotient hx hy, Word.scale, if_neg hb, Word.checked_of_inRange ((inRange_tdiv_iff a.property).2 hne)]
  rfl

/-- The quotient times the divisor and the remainder add up to the dividend, and nothing on the way is too large. -/
theorem value_recombined (hb : b.val ≠ 0) (hne : ¬(a.val = -32768 ∧ b.val = -1)) :
    (recombined x y).value m = (.ok a, m) := by
  have hproduct : (ofFactors x [(.over, y), (.times, y)]).value m =
      (.ok ⟨a.val.tdiv b.val * b.val, a.property.tdiv_mul b.val⟩, m) := by
    rw [value_quotient_of_ne hx hy _ hb hne, goOn, bind_apply, hy]
    dsimp only
    rw [Word.scale, Word.checked_of_inRange (a.property.tdiv_mul b.val)]
    rfl
  have hremainder : (remainder x y).value m = (.ok ⟨a.val.tmod b.val, a.property.tmod b.val⟩, m) := by
    rw [value_remainder hx hy, Word.remainder, if_neg hb]
    rfl
  have hsum : Word.checked (a.val.tdiv b.val * b.val + a.val.tmod b.val) = .ok a := by
    rw [Word.checked_of_inRange (by rw [Int.tdiv_mul_add_tmod]; exact a.property)]
    exact congrArg Except.ok (Subtype.ext (Int.tdiv_mul_add_tmod _ _))
  show ((ofFactors x [(.over, y), (.times, y)]).value >>= fun w => (remainder x y).value >>= fun r =>
    Run.require (Word.add .plus w r)) m = _
  rw [bind_apply, hproduct]
  dsimp only
  rw [bind_apply, hremainder]
  dsimp only
  rw [Word.add, hsum]
  rfl

end Operands

end Expr

/-! ### Nodes -/

/-- A term is shown at a node. -/
def Image.ShowsTerm (image : Image) (p : PlainExpr .product) (k : NodeId) : Prop :=
  ∃ ks s, p.ShownIn image.program.lexemes image.program.arena ks ∧ image.program.arena.Owns k (.term s) none ks

section Nodes

variable {image : Image} {x y : PlainExpr .operand} {i j : NodeId} {frames : Nat} {m : Machine} {a b : Int}
  {s t : State}

/-- The value of an operand without RND is that of its node, and it changes nothing. -/
theorem Expr.ShownIn.exists_value (hi : x.ShownIn image.program.lexemes image.program.arena i) (hx : ¬x.Draws)
    (hframes : 6 * x.nesting + 3 ≤ frames) (ha : image.evaluate frames i m.toState = (.ok (.number a), s)) :
    ∃ w : Word, w.val = a ∧ x.value m = (.ok w, m) := by
  have hleaves : Run.Leaves (fun m => m) x.value := Expr.leaves_value_of fun h => absurd h hx
  have hsame : (x.value m).2 = m := hleaves m
  rw [hi.mirrorsAt frames hframes m] at ha
  generalize x.value m = result at hsame ha
  obtain ⟨r, m'⟩ := result
  obtain rfl : m' = m := hsame
  cases r with
  | error h => cases ha
  | ok w =>
    cases ha
    exact ⟨w, rfl, rfl⟩

theorem Image.ShowsTerm.evaluate_eq {p : PlainExpr .product} {k : NodeId} (h : image.ShowsTerm p k)
    (hframes : 6 * p.nesting + 5 ≤ frames) (m : Machine) :
    image.evaluate frames k m.toState = ((p.value m).1.map Word.toValue, (p.value m).2.toState) := by
  obtain ⟨ks, s, hp, hk⟩ := h
  exact Image.MirrorsAt.term hp.mirrorsAt hk hframes m

section Values

variable {w v : Word} (hx : x.value m = (.ok w, m)) (hy : y.value m = (.ok v, m))
include hx hy

/-- A node for MOD yields the remainder or fails. -/
theorem Image.evaluate_remainder {k : NodeId} (hk : (Expr.remainder x y).ShownIn image.program.lexemes
      image.program.arena k) (hframes : 6 * (Expr.remainder x y).nesting + 3 ≤ frames) :
    ((image.evaluate frames k m.toState).1 = .error (.stopped .divisionByZero) ↔ v.val = 0) ∧
      (v.val ≠ 0 → ∃ r, image.evaluate frames k m.toState = (.ok (.number r), m.toState) ∧ r.natAbs < v.val.natAbs ∧
        (r = 0 ∨ r.sign = w.val.sign)) := by
  rw [hk.mirrorsAt frames hframes m, Expr.value_remainder hx hy, Word.remainder]
  by_cases hzero : v.val = 0
  · rw [if_pos hzero]
    exact ⟨⟨fun _ => hzero, fun _ => rfl⟩, fun hne => absurd hzero hne⟩
  · rw [if_neg hzero]
    exact ⟨⟨nofun, fun h => absurd h hzero⟩,
      fun _ => ⟨_, rfl, natAbs_tmod_lt hzero, tmod_eq_zero_or_sign_eq _ _⟩⟩

/-- A node for a term that begins with a quotient fails at it or goes on with it. -/
theorem Image.ShowsTerm.evaluate_quotient {more : List (Scale × PlainExpr .operand)} {k : NodeId}
    (hk : image.ShowsTerm (.ofFactors x ((.over, y) :: more)) k)
    (hmore : 6 * (Expr.ofFactors x ((.over, y) :: more)).nesting + 5 ≤ frames) :
    (v.val = 0 → image.evaluate frames k m.toState = (.error (.stopped .divisionByZero), m.toState)) ∧
      (w.val = -32768 ∧ v.val = -1 →
        image.evaluate frames k m.toState = (.error (.stopped .mathOverflow), m.toState)) ∧
      (v.val ≠ 0 → ¬(w.val = -32768 ∧ v.val = -1) → ∃ q : Word, q.val = w.val.tdiv v.val ∧
        image.evaluate frames k m.toState =
          ((Expr.goOn more q m).1.map Word.toValue, (Expr.goOn more q m).2.toState)) := by
  rw [hk.evaluate_eq hmore]
  refine ⟨fun hzero => ?_, fun ⟨hleast, hminus⟩ => ?_, fun hne hfits =>
    ⟨⟨_, (inRange_tdiv_iff w.property).2 hfits⟩, rfl, ?_⟩⟩
  · rw [Expr.value_quotient_zero hx hy _ hzero]
    rfl
  · rw [Expr.value_quotient_least hx hy _ hleast hminus]
    rfl
  · rw [Expr.value_quotient_of_ne hx hy _ hne hfits]

/-- A node for a quotient that is a whole term fails for these reasons only. -/
theorem Image.ShowsTerm.evaluate_quotient_alone {k : NodeId} (hk : image.ShowsTerm (.ofFactors x [(.over, y)]) k)
    (hframes : 6 * (Expr.ofFactors x [(.over, y)]).nesting + 5 ≤ frames) :
    ((image.evaluate frames k m.toState).1 = .error (.stopped .divisionByZero) ↔ v.val = 0) ∧
      ((image.evaluate frames k m.toState).1 = .error (.stopped .mathOverflow) ↔ w.val = -32768 ∧ v.val = -1) := by
  obtain ⟨hzero, hleast, hgo⟩ := hk.evaluate_quotient hx hy hframes
  by_cases hv : v.val = 0
  · rw [hzero hv]
    exact ⟨⟨fun _ => hv, fun _ => rfl⟩, nofun, fun ⟨_, hminus⟩ => by omega⟩
  · by_cases hfits : w.val = -32768 ∧ v.val = -1
    · rw [hleast hfits]
      exact ⟨⟨nofun, fun h => absurd h hv⟩, fun _ => hfits, fun _ => rfl⟩
    · obtain ⟨q, -, hq⟩ := hgo hv hfits
      rw [hq]
      exact ⟨⟨nofun, fun h => absurd h hv⟩, nofun, fun h => absurd h hfits⟩

end Values

/-- Two operands without RND have numbers as their values, in some state. Of these numbers MOD yields the remainder, and
a term that begins with their quotient goes on with it. Both fail if the divisor is zero, and a term only fails at its
quotient otherwise if the least number is divided by minus one. If the quotient does not fail, the quotient times the
divisor and the remainder add up to the dividend, as a whole expression. The parsed programs have enough frames for all
their nodes. -/
theorem Image.evaluate_quotient_remainder (hx : ¬x.Draws) (hy : ¬y.Draws)
    (hi : x.ShownIn image.program.lexemes image.program.arena i)
    (hj : y.ShownIn image.program.lexemes image.program.arena j)
    (hframes : 6 * (Expr.recombined x y).nesting ≤ frames)
    (ha : image.evaluate frames i m.toState = (.ok (.number a), s))
    (hb : image.evaluate frames j m.toState = (.ok (.number b), t)) :
    (∀ k, (Expr.remainder x y).ShownIn image.program.lexemes image.program.arena k →
      ((image.evaluate frames k m.toState).1 = .error (.stopped .divisionByZero) ↔ b = 0) ∧
      (b ≠ 0 → ∃ r, image.evaluate frames k m.toState = (.ok (.number r), m.toState) ∧ r.natAbs < b.natAbs ∧
        (r = 0 ∨ r.sign = a.sign))) ∧
    (∀ k, image.ShowsTerm (.ofFactors x [(.over, y)]) k →
      ((image.evaluate frames k m.toState).1 = .error (.stopped .divisionByZero) ↔ b = 0) ∧
      ((image.evaluate frames k m.toState).1 = .error (.stopped .mathOverflow) ↔ a = -32768 ∧ b = -1)) ∧
    (∀ more k, image.ShowsTerm (.ofFactors x ((.over, y) :: more)) k →
      6 * (Expr.ofFactors x ((.over, y) :: more)).nesting + 5 ≤ frames →
      (b = 0 → image.evaluate frames k m.toState = (.error (.stopped .divisionByZero), m.toState)) ∧
      (a = -32768 ∧ b = -1 → image.evaluate frames k m.toState = (.error (.stopped .mathOverflow), m.toState)) ∧
      (b ≠ 0 → ¬(a = -32768 ∧ b = -1) → ∃ q : Word, q.val = a.tdiv b ∧ image.evaluate frames k m.toState =
        ((Expr.goOn more q m).1.map Word.toValue, (Expr.goOn more q m).2.toState))) ∧
    ∀ k, (Expr.recombined x y).WholeIn image.program.lexemes image.program.arena k → b ≠ 0 →
      ¬(a = -32768 ∧ b = -1) → image.evaluate frames k m.toState = (.ok (.number a), m.toState) := by
  -- The whole expression is nested most deeply, so its frames do for all parts.
  have hwhole : 6 * (max x.nesting y.nesting + 2) ≤ frames := by
    rw [Expr.nesting_recombined, Expr.nesting_remainder] at hframes
    omega
  obtain ⟨w, rfl, hxw⟩ := hi.exists_value hx (by omega) ha
  obtain ⟨v, rfl, hyv⟩ := hj.exists_value hy (by omega) hb
  refine ⟨fun k hk => ?_, fun k hk => ?_, fun more k hk hmore => hk.evaluate_quotient hxw hyv hmore,
    fun k hk hne hfits => ?_⟩
  · refine Image.evaluate_remainder hxw hyv hk ?_
    rw [Expr.nesting_remainder]
    omega
  · refine hk.evaluate_quotient_alone hxw hyv ?_
    show 6 * max x.nesting y.nesting + 5 ≤ frames
    omega
  · rw [hk.mirrors hframes m, Expr.value_recombined hxw hyv hne hfits]
    rfl

/-- The least number. No literal denotes it. -/
def least : PlainExpr .operand :=
  .group (.ofTerms .minus (.ofFactors (.number 32767) []) [(.minus, .ofFactors (.number 1) [])])

/-- The least number is divided by a variable, whose value may be minus three. -/
theorem Image.evaluate_quotient_remainder_least : ∃ p image k, ∃ y : PlainExpr .operand,
    Program.parse "PRINT ( - 32767 - 1 ) / C * C + MOD ( ( - 32767 - 1 ) , C )\n".toList = .ok p ∧
    Image.ofProgram p = .ok image ∧ ¬least.Draws ∧ ¬y.Draws ∧ 6 * (Expr.recombined least y).nesting ≤ maxFrames ∧
    (Expr.recombined least y).WholeIn image.program.lexemes image.program.arena k ∧
    ∀ m : Machine, (m.store.get ⟨2, by decide⟩).val = -3 →
      image.evaluate maxFrames k m.toState = (.ok (.number (-32768)), m.toState) := by
  let y : PlainExpr .operand := .var ⟨2, by decide⟩
  let line : PlainLine := ⟨none, .print () (.value (.recombined least y)) []⟩
  have hrender : render ⟨false, false⟩ [line] =
      "PRINT ( - 32767 - 1 ) / C * C + MOD ( ( - 32767 - 1 ) , C )\n".toList := by
    decide +kernel
  have hx : ¬least.Draws := not_or_intro id id
  have hy : ¬y.Draws := id
  obtain ⟨p, clauses, hp, hmeans, hlines⟩ := Program.exists_parse_render ⟨false, false⟩
    (show ∀ l ∈ [line], l.body.nesting ≤ Grammar.maxNesting by decide)
  rw [hrender] at hp
  obtain ⟨image, himage, rfl, hrepresents⟩ := hmeans.exists_image
  obtain ⟨c, rfl, hc⟩ := List.map_eq_singleton_iff.1 hlines
  obtain ⟨_, -, -, -, -, hroot⟩ := hrepresents.shows.root
  obtain ⟨_, -, _, hb, -⟩ := exists_mem_of_forall₂ hroot List.mem_cons_self
  rw [hc] at hb
  obtain ⟨_, hjs, -⟩ := hb
  obtain ⟨k, -, hk⟩ := exists_mem_of_forall₂ hjs List.mem_cons_self
  have hoperands : ∃ i j, least.ShownIn image.program.lexemes image.program.arena i ∧
      y.ShownIn image.program.lexemes image.program.arena j := by
    obtain ⟨_, ⟨_, _, _, ⟨_, _, ⟨_, j, _, ⟨_, _, _, ⟨i, _, hi, -⟩, -⟩, hj, -⟩, -⟩, -⟩, -⟩ := hk
    exact ⟨i, j, hi, hj⟩
  obtain ⟨i, j, hi, hj⟩ := hoperands
  refine ⟨_, image, k, y, hp, himage, hx, hy, by decide, hk, fun m hm => ?_⟩
  have ha : image.evaluate maxFrames i m.toState = (.ok (.number (-32768)), m.toState) :=
    hi.mirrorsAt maxFrames (by decide) m
  have hb : image.evaluate maxFrames j m.toState = (.ok (.number (-3)), m.toState) := by
    rw [hj.mirrorsAt maxFrames (by decide) m, ← hm]
    rfl
  obtain ⟨-, -, -, hwhole⟩ := Image.evaluate_quotient_remainder hx hy hi hj (by decide) ha hb
  exact hwhole k hk (by decide) (by decide)

end Nodes

end LineBasic

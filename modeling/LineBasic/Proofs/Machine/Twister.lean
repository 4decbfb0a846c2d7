import Mathlib.Algebra.Field.ZMod
import Mathlib.Algebra.Module.ZMod
import Mathlib.LinearAlgebra.Charpoly.BaseChange
import Mathlib.LinearAlgebra.Eigenspace.Charpoly
import LineBasic.Machine.Generator

/-!
# Draws end

A draw that is too large is repeated, and each draw that is too large begins with a bit that is set. The twister is a
linear map over the field of two elements, so its first bits satisfy a linear recurrence, and no state but zero stays
as it is. Therefore the first bits are not set more often in a row than a state has bits, and a draw ends within its
attempts, whatever the state is.

## Main definitions

* `Bits`: a word as a vector of bits.
* `Generator.Register`: the words to come; `Generator.turn` is the step from one word to the next.

## Main results

* `exists_pow_apply_ne_one`: a functional along the powers of a linear map.
* `Generator.upcoming_add_size_eq`: the recurrence of the words.
* `Generator.register_next`: the generator turns its register.
* `Generator.isSome_below`: draws end.
-/

namespace LineBasic

/-! ### Functionals along powers -/

/-- If a linear map leaves nothing but zero as it is, a functional is not always one along its powers, of which there
need not be more than the dimension and one. -/
theorem exists_pow_apply_ne_one {K V : Type} [Field K] [AddCommGroup V] [Module K V] [Module.Finite K V]
    {f : Module.End K V} (hf : ∀ v, f v = v → v = 0) (l : V →ₗ[K] K) (v : V) :
    ∃ k ≤ Module.finrank K V, l ((f ^ k) v) ≠ 1 := by
  by_contra! hones
  -- The characteristic polynomial says how the values of the functional depend on those before them.
  have hvanish : l (Polynomial.aeval f f.charpoly v) = 0 := by
    rw [LinearMap.aeval_self_charpoly, LinearMap.zero_apply, map_zero]
  have hroot : f.charpoly.IsRoot 1 := by
    rw [Polynomial.aeval_eq_sum_range, LinearMap.charpoly_natDegree, LinearMap.sum_apply, map_sum] at hvanish
    rw [Polynomial.IsRoot, Polynomial.eval_eq_sum_range, LinearMap.charpoly_natDegree, ← hvanish]
    refine Finset.sum_congr rfl fun k hk => ?_
    rw [LinearMap.smul_apply, map_smul, hones k (Nat.le_of_lt_succ (Finset.mem_range.1 hk)), one_pow, smul_eq_mul]
  obtain ⟨w, hw⟩ := ((Module.End.hasEigenvalue_iff_isRoot_charpoly f 1).2 hroot).exists_hasEigenvector
  exact hw.2 (hf w (by rw [hw.apply_eq_smul, one_smul]))

/-! ### Words as vectors -/

/-- A word as a vector of bits. Words are added bit by bit. -/
@[ext]
structure Bits where
  word : UInt32

namespace Bits

instance : Add Bits := ⟨fun a b => ⟨a.word ^^^ b.word⟩⟩
instance : Zero Bits := ⟨⟨0⟩⟩
instance : Neg Bits := ⟨id⟩

@[simp] theorem word_add (a b : Bits) : (a + b).word = a.word ^^^ b.word := rfl

instance : AddCommGroup Bits where
  add_assoc _ _ _ := Bits.ext (UInt32.xor_assoc ..)
  zero_add _ := Bits.ext UInt32.zero_xor
  add_zero _ := Bits.ext UInt32.xor_zero
  neg_add_cancel _ := Bits.ext UInt32.xor_self
  add_comm _ _ := Bits.ext (UInt32.xor_comm ..)
  nsmul := nsmulRec
  zsmul := zsmulRec

instance : Module (ZMod 2) Bits :=
  AddCommGroup.zmodModule fun a => by rw [two_nsmul]; exact neg_add_cancel a

/-- There are as many words as numbers below the size of a word. -/
def equivFin : Bits ≃ Fin (2 ^ 32) where
  toFun a := a.word.toFin
  invFun i := ⟨⟨⟨i⟩⟩⟩
  left_inv _ := rfl
  right_inv _ := rfl

instance : Fintype Bits := .ofEquiv _ equivFin.symm

theorem finrank_eq : Module.finrank (ZMod 2) Bits = 32 := by
  have hcard : 2 ^ 32 = 2 ^ Module.finrank (ZMod 2) Bits := by
    rw [← Fintype.card_fin (2 ^ 32), ← Fintype.card_congr equivFin, Module.card_eq_pow_finrank (K := ZMod 2),
      ZMod.card]
  exact (Nat.pow_right_injective (Nat.le_refl 2) hcard).symm

/-! ### Linear operations on words -/

/-- The bits that a mask keeps. -/
def mask (m : UInt32) : Bits →+ Bits :=
  .mk' (fun a => ⟨a.word &&& m⟩) fun a b => Bits.ext <| UInt32.toBitVec_inj.1 <| by
    ext i
    simp [Bool.and_xor_distrib_right]

@[simp] theorem word_mask (m : UInt32) (a : Bits) : (mask m a).word = a.word &&& m := rfl

/-- The bits some places further down. -/
def down (n : UInt32) : Bits →+ Bits := .mk' (fun a => ⟨a.word >>> n⟩) fun _ _ => Bits.ext UInt32.shiftRight_xor

@[simp] theorem word_down (n : UInt32) (a : Bits) : (down n a).word = a.word >>> n := rfl

/-- The bits some places further up. -/
def up (n : UInt32) : Bits →+ Bits := .mk' (fun a => ⟨a.word <<< n⟩) fun _ _ => Bits.ext UInt32.shiftLeft_xor

theorem and_one_eq_iff (w : UInt32) : w &&& 1 = 1 ↔ w.toBitVec[0] = true := by
  constructor
  · intro h
    simpa using congrArg (fun w => w.toBitVec[0]) h
  · intro h
    refine UInt32.toBitVec_inj.1 (BitVec.eq_of_getElem_eq fun i hi => ?_)
    rcases i with _ | i
    · simpa using h
    · simp

/-- Some word if the last bit is set, and zero if it is not. -/
def ifOdd (m : UInt32) : Bits →+ Bits :=
  .mk' (fun a => ⟨if a.word &&& 1 = 1 then m else 0⟩) fun a b => Bits.ext <| by
    simp only [word_add, and_one_eq_iff, UInt32.toBitVec_xor, BitVec.getElem_xor]
    cases a.word.toBitVec[0] <;> cases b.word.toBitVec[0] <;> simp

@[simp] theorem word_ifOdd (m : UInt32) (a : Bits) : (ifOdd m a).word = if a.word &&& 1 = 1 then m else 0 := rfl

/-- The first bit. -/
def first : Bits →+ ZMod 2 :=
  .mk' (fun a => if a.word.toBitVec.msb then 1 else 0) fun a b => by
    simp only [word_add, UInt32.toBitVec_xor, BitVec.msb_xor]
    cases a.word.toBitVec.msb <;> cases b.word.toBitVec.msb <;> decide

theorem lt_of_first_ne_one {a : Bits} (h : first a ≠ 1) : a.word.toNat < 2 ^ 31 := by
  have hmsb : a.word.toBitVec.msb = false := by
    by_contra hset
    exact h (if_pos (Bool.eq_true_of_not_eq_false hset))
  simpa [BitVec.msb_eq_decide] using hmsb

end Bits

namespace Generator

open Bits

/-- The scrambling of a word. -/
def tempered : Bits →+ Bits :=
  (AddMonoidHom.id Bits + down 18).comp <| (AddMonoidHom.id Bits + (mask 0xEFC60000).comp (up 15)).comp <|
    (AddMonoidHom.id Bits + (mask 0x9D2C5680).comp (up 7)).comp (AddMonoidHom.id Bits + down 11)

theorem word_tempered (a : Bits) : (tempered a).word = temper a.word := rfl

/-- What a new word has from a joined one. -/
def twisted : Bits →+ Bits := down 1 + ifOdd 0x9908B0DF

/-- The first bit of one word and the other bits of another. -/
def joined (a b : Bits) : Bits := mask 0x80000000 a + mask 0x7FFFFFFF b

theorem joined_add (a a' b b' : Bits) : joined (a + a') (b + b') = joined a b + joined a' b' := by
  simp only [joined, map_add]
  abel

theorem getElem_lower (i : Nat) (hi : i < 32) : (0x7FFFFFFF#32)[i] = !(0x80000000#32)[i] := by
  rw [← BitVec.getElem_not]
  rfl

/-- The two masks have no bit in common, so it does not matter how the bits are put together. -/
theorem word_joined (a b : Bits) : (joined a b).word = (a.word &&& 0x80000000) ||| (b.word &&& 0x7FFFFFFF) := by
  refine UInt32.toBitVec_inj.1 (BitVec.eq_of_getElem_eq fun i hi => ?_)
  simp only [joined, word_add, word_mask, UInt32.toBitVec_xor, UInt32.toBitVec_and, UInt32.toBitVec_or,
    UInt32.toBitVec_ofNat, BitVec.getElem_xor, BitVec.getElem_and, BitVec.getElem_or, getElem_lower]
  cases (0x80000000#32)[i] <;> simp

theorem joined_self (a : Bits) : joined a a = a := by
  refine Bits.ext (UInt32.toBitVec_inj.1 (BitVec.eq_of_getElem_eq fun i hi => ?_))
  simp only [word_joined, UInt32.toBitVec_and, UInt32.toBitVec_or, UInt32.toBitVec_ofNat, BitVec.getElem_and,
    BitVec.getElem_or, getElem_lower]
  cases (0x80000000#32)[i] <;> simp

/-- A half of a word is never the word that would have been added to it. -/
theorem eq_zero_of_twisted {a : Bits} (h : twisted a = 0) : a = 0 := by
  have hword : a.word >>> 1 = if a.word &&& 1 = 1 then 0x9908B0DF else 0 :=
    UInt32.xor_eq_zero_iff.1 (congrArg Bits.word h)
  have hhalf : (a.word >>> 1).toNat = a.word.toNat / 2 := by
    rw [UInt32.toNat_shiftRight]
    rfl
  have hlt := a.word.toNat_lt
  split at hword
  · -- The word that is added has its first bit set, and a half of a word has not.
    rw [hword] at hhalf
    have h' : (0x9908B0DF : UInt32).toNat = 2567483615 := rfl
    omega
  · rename_i hodd
    rw [hword] at hhalf
    have hmod : a.word.toNat % 2 ≠ 1 := by
      intro hmod
      refine hodd (UInt32.toNat_inj.1 ?_)
      rw [UInt32.toNat_and]
      exact (Nat.and_one_is_mod _).trans hmod
    refine Bits.ext (UInt32.toNat_inj.1 ?_)
    have h' : (0 : UInt32).toNat = 0 := rfl
    show a.word.toNat = 0
    omega

instance : NeZero stateSize := ⟨by decide⟩

/-- The words of one generation. -/
abbrev Register := Fin stateSize → Bits

/-- The register behind its first word. -/
def turn : Module.End (ZMod 2) Register :=
  AddMonoidHom.toZModLinearMap 2 <| .mk' (fun r i =>
    if h : i + 1 < stateSize then r ⟨i + 1, h⟩
    else r 397 + twisted (joined (r 0) (r 1))) fun r s => by
      ext1 i
      dsimp only [Pi.add_apply]
      split
      · rfl
      · rw [joined_add, map_add]
        abel

theorem finrank_register : Module.finrank (ZMod 2) Register = 32 * stateSize := by
  rw [Module.finrank_pi_fintype, Finset.sum_const, Finset.card_univ, Fintype.card_fin, Bits.finrank_eq, smul_eq_mul,
    Nat.mul_comm]

/-- Only a register of equal words stays as it is, and the recurrence leaves no other word than zero. -/
theorem eq_zero_of_turn (r : Register) (h : turn r = r) : r = 0 := by
  have hstep : ∀ i (hi : i + 1 < stateSize), r ⟨i + 1, hi⟩ = r ⟨i, Nat.lt_of_succ_lt hi⟩ := by
    intro i hi
    have hturn : turn r ⟨i, Nat.lt_of_succ_lt hi⟩ = r ⟨i + 1, hi⟩ := dif_pos hi
    rw [← hturn, h]
  have hsame : ∀ i (hi : i < stateSize), r ⟨i, hi⟩ = r 0 := by
    intro i
    induction i with
    | zero => exact fun _ => rfl
    | succ i ih => exact fun hi => (hstep i hi).trans (ih _)
  have hlast : r 397 + twisted (joined (r 0) (r 1)) = r 623 := congrFun h 623
  rw [show r 397 = r 0 from hsame 397 (by decide), show r 1 = r 0 from hsame 1 (by decide),
    show r 623 = r 0 from hsame 623 (by decide), joined_self, add_eq_left] at hlast
  funext i
  rw [hsame i.val i.isLt, eq_zero_of_twisted hlast]
  rfl

/-! ### Generations of words -/

variable {v u : StateWords} {i j n : Nat}

theorem around_of_lt (hi : i < stateSize) : around v i = v[i] := by
  simp only [around, Nat.mod_eq_of_lt hi]
  rfl

theorem around_add_size (v : StateWords) (i : Nat) : around v (i + stateSize) = around v i := by
  simp only [around, Nat.add_mod_right]

theorem around_set_self (x : UInt32) (hi : i < stateSize) : around (v.set i x) i = x := by
  rw [around_of_lt hi, Vector.getElem_set_self]

theorem around_set_ne (x : UInt32) (hi : i < stateSize) (h : j % 624 ≠ i) : around (v.set i x) j = around v j :=
  Vector.getElem_set_ne _ _ h.symm

/-- The word that takes the place of a word, given this one, the next one and another one further on. -/
def renewed (far this next : UInt32) : UInt32 := (⟨far⟩ + twisted (joined ⟨this⟩ ⟨next⟩) : Bits).word

/-- One word of the state is renewed. -/
def renew (v : StateWords) (i : Nat) (hi : i < stateSize) : StateWords :=
  v.set i (renewed (around v (i + 397)) (around v i) (around v (i + 1)))

theorem regenerate_eq (v : StateWords) : regenerate v = Nat.fold stateSize (fun i hi v => renew v i hi) v := by
  rw [regenerate]
  congr 1
  funext i hi v
  rw [renew, renewed, around_of_lt hi]
  simp only [twisted, AddMonoidHom.add_apply, word_add, word_down, word_ifOdd, word_joined, UInt32.xor_assoc]

/-- Some words of the state have been renewed, from words behind them that had not been, or had been already. -/
structure Renewed (v u : StateWords) (n : Nat) : Prop where
  old : ∀ j, n ≤ j → j < stateSize → around u j = around v j
  new : ∀ j, j < n → around u j =
    renewed (if j + 397 < stateSize then around v (j + 397) else around u (j + 397)) (around v j)
      (if j + 1 < stateSize then around v (j + 1) else around u (j + 1))

theorem Renewed.renew (h : Renewed v u n) (hn : n < stateSize) : Renewed v (renew u n hn) (n + 1) := by
  have hsize : stateSize = 624 := rfl
  have hself : around (Generator.renew u n hn) n = renewed (around u (n + 397)) (around u n) (around u (n + 1)) :=
    around_set_self _ hn
  have hne {j : Nat} (hj : j % 624 ≠ n) : around (Generator.renew u n hn) j = around u j := around_set_ne _ hn hj
  constructor
  · intro j hj hlt
    rw [hne (by omega), h.old j (by omega) hlt]
  · intro j hj
    rcases Nat.lt_succ_iff_lt_or_eq.1 hj with hlt | rfl
    · have hnext : j + 1 < stateSize := by omega
      rw [hne (by omega), h.new j hlt, if_pos hnext, if_pos hnext]
      split
      · rfl
      · rw [hne (by omega)]
    · -- The word that was renewed last comes from words that stay as they are.
      rw [hself, h.old j (Nat.le_refl j) hn]
      congr 1
      · split
        · exact h.old _ (by omega) (by omega)
        · exact (hne (by omega)).symm
      · split
        · exact h.old _ (by omega) (by omega)
        · exact (hne (by omega)).symm

/-- A round through the state renews its words one after another. -/
theorem renewed_fold (v : StateWords) {n : Nat} (hn : n ≤ stateSize) :
    Renewed v (Nat.fold n (fun i hi v => Generator.renew v i (Nat.lt_of_lt_of_le hi hn)) v) n := by
  induction n with
  | zero => exact ⟨fun _ _ _ => rfl, fun _ hj => absurd hj (Nat.not_lt_zero _)⟩
  | succ n ih =>
    rw [Nat.fold_succ]
    exact (ih (Nat.le_of_succ_le hn)).renew hn

theorem renewed_regenerate (v : StateWords) : Renewed v (regenerate v) stateSize := by
  rw [regenerate_eq]
  exact renewed_fold v (Nat.le_refl _)

/-- The words of a state, and those of the next generation behind them. -/
def upcoming (v : StateWords) (k : Nat) : Bits := ⟨if k < stateSize then around v k else around (regenerate v) k⟩

theorem upcoming_of_lt (hi : i < stateSize) : upcoming v i = ⟨around v i⟩ := by
  rw [upcoming, if_pos hi]

theorem upcoming_add_size (v : StateWords) (i : Nat) : upcoming v (i + stateSize) = ⟨around (regenerate v) i⟩ := by
  rw [upcoming, if_neg (Nat.not_lt.2 (Nat.le_add_left _ _)), around_add_size]

/-- The words satisfy a linear recurrence. -/
theorem upcoming_add_size_eq (hi : i < stateSize) :
    upcoming v (i + stateSize) = upcoming v (i + 397) + twisted (joined (upcoming v i) (upcoming v (i + 1))) := by
  rw [upcoming_add_size, (renewed_regenerate v).new i hi, upcoming_of_lt hi]
  rfl

/-! ### The register -/

/-- The generator with words that have not been used. -/
def settled (g : Generator) : Generator := if g.used < stateSize then g else ⟨regenerate g.words, 0⟩

theorem used_settled_lt (g : Generator) : g.settled.used < stateSize := by
  rw [settled]
  split
  · assumption
  · exact Nat.succ_pos _

/-- The words to come, as many as a state has. -/
def register (g : Generator) : Register := fun i => upcoming g.settled.words (g.settled.used + i)

theorem next_eq (g : Generator) :
    g.next = (temper (around g.settled.words g.settled.used), ⟨g.settled.words, g.settled.used + 1⟩) := rfl

/-- The words to come do not change when the last word of a state is followed by another state. -/
theorem register_mk (v : StateWords) (hn : n ≤ stateSize) :
    register ⟨v, n⟩ = fun i : Fin stateSize => upcoming v (n + i) := by
  funext i
  rcases Nat.lt_or_eq_of_le hn with hlt | rfl
  · rw [register, settled, if_pos hlt]
  · rw [register, settled, if_neg (Nat.lt_irrefl _)]
    dsimp only
    rw [Nat.zero_add, Nat.add_comm stateSize, upcoming_add_size, upcoming_of_lt i.isLt]

/-- To take a word is to turn the register. -/
theorem register_next (g : Generator) : register g.next.2 = turn (register g) := by
  have hused := g.used_settled_lt
  rw [next_eq, register_mk _ (Nat.succ_le_of_lt hused)]
  funext ⟨i, hi⟩
  by_cases hlast : i + 1 < stateSize
  · have hturn : turn (register g) ⟨i, hi⟩ = register g ⟨i + 1, hlast⟩ := dif_pos hlast
    rw [hturn]
    exact congrArg (upcoming g.settled.words) (Nat.succ_add_eq_add_succ _ i)
  · obtain rfl : i = 623 := Nat.le_antisymm (Nat.le_of_lt_succ hi) (Nat.le_of_succ_le_succ (Nat.le_of_not_lt hlast))
    exact (congrArg (upcoming g.settled.words) (Nat.succ_add_eq_add_succ _ 623)).trans (upcoming_add_size_eq hused)

/-- The word that is taken is the first one of the register, scrambled. -/
theorem word_next (g : Generator) : (⟨g.next.1⟩ : Bits) = tempered (register g 0) := by
  have hword : register g 0 = ⟨around g.settled.words g.settled.used⟩ :=
    upcoming_of_lt g.used_settled_lt
  rw [hword, next_eq]
  exact Bits.ext (word_tempered _).symm

/-- The first bit of the next word. -/
def nextFirst : Register →ₗ[ZMod 2] ZMod 2 :=
  AddMonoidHom.toZModLinearMap 2 (first.comp (tempered.comp (Pi.evalAddMonoidHom _ 0)))

/-! ### Draws -/

/-- A word whose first bit is not set is small enough. -/
theorem shift_lt {bound w : Nat} (hbound : 0 < bound) (hw : w < 2 ^ 31) : w >>> (32 - (bound.log2 + 1)) < bound := by
  rw [Nat.shiftRight_eq_div_pow]
  refine Nat.lt_of_lt_of_le ?_ (Nat.log2_self_le (Nat.pos_iff_ne_zero.1 hbound))
  refine Nat.div_lt_of_lt_mul (Nat.lt_of_lt_of_le hw ?_)
  rw [← Nat.pow_add]
  exact Nat.pow_le_pow_right (by decide) (by omega)

/-- If all attempts fail, all words begin with a bit that is set. -/
theorem nextFirst_eq_one_of_drawBelow {bound attempts : Nat} {g g' : Generator} (hbound : 0 < bound)
    (h : drawBelow bound attempts g = (none, g')) : ∀ k < attempts, nextFirst ((turn ^ k) (register g)) = 1 := by
  induction attempts generalizing g with
  | zero => exact fun k hk => absurd hk (Nat.not_lt_zero k)
  | succ attempts ih =>
    rw [drawBelow] at h
    dsimp only at h
    split at h
    · cases h
    · rename_i hlarge
      intro k hk
      cases k with
      | zero =>
        by_contra hfirst
        refine hlarge (shift_lt hbound (lt_of_first_ne_one (a := ⟨g.next.1⟩) ?_))
        rw [word_next]
        exact hfirst
      | succ k =>
        have hrest := ih h k (Nat.lt_of_succ_lt_succ hk)
        rwa [register_next, ← Module.End.mul_apply, ← pow_succ] at hrest

/-- Draws end, whatever the generator is. -/
theorem isSome_below {bound : Nat} (hbound : 0 < bound) (g : Generator) : (g.below bound).1.isSome := by
  obtain ⟨k, hk, hne⟩ := exists_pow_apply_ne_one eq_zero_of_turn nextFirst (register g)
  rw [finrank_register] at hk
  rw [below]
  rcases hdraw : drawBelow bound maxAttempts g with ⟨_ | n, g'⟩
  · refine absurd (nextFirst_eq_one_of_drawBelow hbound hdraw k ?_) hne
    exact Nat.lt_of_le_of_lt hk (by decide)
  · rfl

/-- The number that is drawn. -/
def drawn (g : Generator) (bound : Nat) (hbound : 0 < bound) : Nat := (g.below bound).1.get (isSome_below hbound g)

theorem below_eq (g : Generator) {bound : Nat} (hbound : 0 < bound) :
    g.below bound = (some (g.drawn bound hbound), (g.below bound).2) :=
  Prod.ext (Option.some_get _).symm rfl

end Generator

end LineBasic

/-!
# Random numbers

The Mersenne twister with a state of 624 words. A seed of any size is cut into words that fill the state,
and a whole number below a bound is drawn by taking as many bits as the bound has until they are small
enough.

## Main definitions

* `Generator`: the state of the twister.
* `Generator.ofSeed`: the state that a seed gives; the sign of the seed does not matter.
* `Generator.next`: the next word.
* `Generator.below`: a number below a bound.
-/

namespace LineBasic

/-- The number of words of the state. -/
def stateSize : Nat := 624

/-- The words of the state. -/
abbrev StateWords := Vector UInt32 stateSize

/-- A generator: its words and how many of them have been used. -/
structure Generator where
  words : StateWords
  used : Nat
  deriving DecidableEq, Repr

namespace Generator

/-- The word at an index, counted around the state. -/
def around (v : StateWords) (i : Nat) : UInt32 :=
  v.get ⟨i % stateSize, Nat.mod_lt i (by decide)⟩

/-- What one word passes on to the next when the state is filled. -/
def carry (w : UInt32) : UInt32 := w ^^^ (w >>> 30)

/-- The state that a single word gives. -/
def fill (seed : UInt32) : StateWords :=
  Nat.fold stateSize (fun i h v =>
    v.set i (if i = 0 then seed else 1812433253 * carry (around v (i - 1)) + UInt32.ofNat i))
    (Vector.replicate stateSize 0)

/-- Replaces a word of the state in a round through the words behind the first. Before the round starts
again, the last word is copied over the first. -/
def replaceWord (v : StateWords) (round : Nat) (f : (index : Nat) → (old previous : UInt32) → UInt32) :
    StateWords :=
  let i := round % (stateSize - 1) + 1
  have hi : i < stateSize :=
    Nat.succ_lt_of_lt_pred (Nat.mod_lt round (by decide))
  let v := v.set i (f i v[i] (around v (i - 1)))
  if i = stateSize - 1 then v.set 0 v[i] (by decide) else v

/-- The words of a seed's absolute value, the least significant first. There is at least one. -/
def seedWords (seed : Int) : Array UInt32 :=
  let n := seed.natAbs
  (Array.range (n.log2 / 32 + 1)).map fun i => UInt32.ofNat (n >>> (32 * i))

/-- The state that a seed gives. -/
def ofSeed (seed : Int) : Generator :=
  let key := seedWords seed
  let rounds := max stateSize key.size
  let mixed := Nat.fold rounds (fun round _ v =>
    replaceWord v round fun _ old previous =>
      let j := round % key.size
      (old ^^^ (carry previous * 1664525)) + key.getD j 0 + UInt32.ofNat j) (fill 19650218)
  let spread := Nat.fold (stateSize - 1) (fun k _ v =>
    replaceWord v (rounds + k) fun i old previous =>
      (old ^^^ (carry previous * 1566083941)) - UInt32.ofNat i) mixed
  ⟨spread.set 0 0x80000000 (by decide), stateSize⟩

/-- The next generation of words. -/
def regenerate (v : StateWords) : StateWords :=
  Nat.fold stateSize (fun i h v =>
    let joined := (v[i] &&& 0x80000000) ||| (around v (i + 1) &&& 0x7FFFFFFF)
    let twist : UInt32 := if joined &&& 1 = 1 then 0x9908B0DF else 0
    v.set i (around v (i + 397) ^^^ (joined >>> 1) ^^^ twist)) v

/-- The scrambling of a word before it is handed out. -/
def temper (w : UInt32) : UInt32 :=
  let w := w ^^^ (w >>> 11)
  let w := w ^^^ ((w <<< 7) &&& 0x9D2C5680)
  let w := w ^^^ ((w <<< 15) &&& 0xEFC60000)
  w ^^^ (w >>> 18)

/-- The next word. -/
def next (g : Generator) : UInt32 × Generator :=
  let g := if g.used < stateSize then g else ⟨regenerate g.words, 0⟩
  (temper (around g.words g.used), ⟨g.words, g.used + 1⟩)

/-- The first of at most `attempts` draws of as many bits as `bound` has that is below it. -/
def drawBelow (bound : Nat) : (attempts : Nat) → Generator → Option Nat × Generator
  | 0, g => (none, g)
  | attempts + 1, g =>
    let (word, g) := g.next
    let drawn := word.toNat >>> (32 - (bound.log2 + 1))
    if drawn < bound then (some drawn, g) else drawBelow bound attempts g

/-- How often a draw that is too large is repeated. A draw is small enough if its first bit is not set, and the first
bits are not set as often as this in a row, so the limit is out of reach. -/
def maxAttempts : Nat := 20000

/-- A number below a bound, which must be positive. -/
def below (bound : Nat) (g : Generator) : Option Nat × Generator :=
  drawBelow bound maxAttempts g

/-- What is drawn lies below the bound. -/
theorem drawBelow_lt {bound attempts n : Nat} {g g' : Generator}
    (h : drawBelow bound attempts g = (some n, g')) : n < bound := by
  induction attempts generalizing g with
  | zero => simp [drawBelow] at h
  | succ attempts ih =>
    simp only [drawBelow] at h
    split at h
    · rename_i hlt
      simp only [Prod.mk.injEq, Option.some.injEq] at h
      omega
    · exact ih h

end Generator

end LineBasic

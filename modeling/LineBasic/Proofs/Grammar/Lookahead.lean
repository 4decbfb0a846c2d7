import LineBasic.Proofs.Grammar.Acceptance

/-!
# How far a parser looks ahead

A parser looks at one tag at a time, so what it finds rests on the tags that it has read and on the next one, and
what it complains about rests on the tags up to the offending one. A complaint about nesting does not even rest on
that tag: the levels are used up before it is looked at. With more levels the parser does the same, complaints
about nesting apart.

## Main definitions

* `Cursor.AgreesBefore`: two cursors have the same tags in front of them, up to a position.
* `Parser.Foretells`: what one parser does at a cursor tells what another one does at any cursor that agrees with
  it for long enough.
* `Parser.ReadsOne`: a parser reads one tag and does not look at the one behind it.
* `Parser.Interrupts`: a repetition that ends with a complaint.

## Main results

* `Parser.Foretells.bind`, `Parser.Foretells.readsOne_bind`, `Parser.Foretells.many`: how parsers that foretell
  others are put together.
-/

namespace LineBasic

namespace Cursor

/-- Two cursors stand at the same position, and up to another one they have the same tags in front of them. -/
structure AgreesBefore (m : Nat) (c d : Cursor) : Prop where
  position : d.position = c.position
  rest : ∀ k, c.position + k < m → d.rest[k]? = c.rest[k]?

/-- The cursor behind the next tag. -/
def next (c : Cursor) : Cursor := ⟨c.position + 1, c.rest.tail⟩

variable {c d : Cursor} {m : Nat}

theorem AgreesBefore.next (h : c.AgreesBefore m d) : c.next.AgreesBefore m d.next where
  position := congrArg (· + 1) h.position
  rest k hk := by
    have hk : c.position + 1 + k < m := hk
    simpa only [Cursor.next, List.getElem?_tail] using h.rest (k + 1) (by omega)

theorem AgreesBefore.head (h : c.AgreesBefore m d) (hm : c.position < m) : d.rest.head? = c.rest.head? := by
  simpa only [List.head?_eq_getElem?] using h.rest 0 hm

end Cursor

/-- How many tags a complaint rests on: the offending one too, unless the complaint is about nesting. -/
def SyntaxError.horizon (e : SyntaxError) : Nat := if e.complaint = .nestingTooDeep then e.token else e.token + 1

theorem SyntaxError.token_le_horizon (e : SyntaxError) : e.token ≤ e.horizon := by
  unfold horizon
  split
  · exact Nat.le_refl _
  · exact Nat.le_succ _

namespace Parser

variable {α β : Type} {K : Complaint → Prop} {late : Bool}

/-- What one parser does tells what another one does with an input that begins alike. If the first one succeeds,
so does the other one, provided that the inputs agree on what was read and on the tag behind it. If the first one
complains in one of certain ways, so does the other one, provided that they agree on what the complaint rests on.
Neither goes back; and if `late`, there is a tag between the beginning and any complaint about nesting. -/
structure Foretells (K : Complaint → Prop) (late : Bool) (p q : Parser α) : Prop where
  onward : ∀ {c c' : Cursor} {a : α}, p c = .ok (a, c') → c.position ≤ c'.position
  ahead : ∀ {c : Cursor} {e : SyntaxError}, p c = .error (.wrong e) → c.position ≤ e.token
  nesting : late → ∀ {c : Cursor} {i : TokenId}, p c = .error (.wrong ⟨.nestingTooDeep, i⟩) → c.position < i
  found : ∀ {m : Nat} {c c' d : Cursor} {a : α}, c.AgreesBefore m d → p c = .ok (a, c') → c'.position < m →
    ∃ d', q d = .ok (a, d') ∧ c'.AgreesBefore m d'
  failed : ∀ {m : Nat} {c d : Cursor} {e : SyntaxError}, c.AgreesBefore m d → p c = .error (.wrong e) →
    K e.complaint → e.horizon ≤ m → q d = .error (.wrong e)

/-- A parser that reads exactly one tag. What it does with it is a function of the tag and its position. -/
def ReadsOne (p : Parser α) : Prop :=
  ∃ g : Option Tag → TokenId → Except ParseFailure α,
    (∀ c, p c = (g c.rest.head? c.position).map (·, c.next)) ∧
      ∀ t i e, g t i = .error (.wrong e) → e.token = i ∧ e.complaint ≠ .nestingTooDeep

theorem readsOne_advance : ReadsOne advance :=
  ⟨fun _ i => .ok i, fun _ => rfl, fun _ _ _ h => by cases h⟩

/-- What is made of the next tag where a certain one is expected. -/
def expectAt (t : Tag) : Option Tag → TokenId → Except ParseFailure TokenId
  | none, _ => .error .outOfTokens
  | some u, i => if u = t then .ok i else .error (.wrong ⟨.expectToken t, i⟩)

theorem readsOne_expect (t : Tag) : ReadsOne (expect t) := by
  refine ⟨expectAt t, ?_, ?_⟩
  · rintro ⟨i, _ | ⟨u, us⟩⟩
    · rfl
    · rw [expect, bind_eq_of_eq_ok (peek_eq_ok_iff.2 ⟨rfl, us, rfl⟩)]
      dsimp only [List.head?_cons, expectAt]
      split <;> rfl
  · rintro (_ | u) i e h
    · cases h
    · rw [expectAt] at h
      split at h <;> cases h
      exact ⟨rfl, by simp⟩

namespace ReadsOne

variable {p : Parser α} {m : Nat} {c c' d : Cursor} {a : α}

theorem next (hp : ReadsOne p) (h : p c = .ok (a, c')) : c' = c.next := by
  obtain ⟨g, hg, -⟩ := hp
  rw [hg] at h
  cases hr : g c.rest.head? c.position <;> rw [hr] at h <;> cases h
  rfl

/-- The tag behind the one that is read need not be the same. -/
theorem found (hp : ReadsOne p) (hcd : c.AgreesBefore m d) (hm : c.position < m) (h : p c = .ok (a, c')) :
    p d = .ok (a, d.next) := by
  obtain ⟨g, hg, -⟩ := hp
  rw [hg] at h ⊢
  rw [hcd.head hm, hcd.position]
  cases hr : g c.rest.head? c.position <;> rw [hr] at h <;> cases h
  rfl

theorem failed (hp : ReadsOne p) (hcd : c.AgreesBefore m d) (hm : c.position < m) {e : ParseFailure}
    (h : p c = .error e) : p d = .error e := by
  obtain ⟨g, hg, -⟩ := hp
  rw [hg] at h ⊢
  rw [hcd.head hm, hcd.position]
  cases hr : g c.rest.head? c.position <;> rw [hr] at h <;> cases h
  rfl

theorem here (hp : ReadsOne p) {e : SyntaxError} (h : p c = .error (.wrong e)) :
    e.token = c.position ∧ e.complaint ≠ .nestingTooDeep := by
  obtain ⟨g, hg, hwrong⟩ := hp
  rw [hg] at h
  cases hr : g c.rest.head? c.position <;> rw [hr] at h <;> cases h
  exact hwrong _ _ _ hr

end ReadsOne

namespace Foretells

variable {p q : Parser α} {f g : α → Parser β}

/-- A late complaint rests on a tag that the parser has to get to. -/
theorem position_lt_horizon (h : Foretells K true p q) {c : Cursor} {e : SyntaxError}
    (he : p c = .error (.wrong e)) : c.position < e.horizon := by
  unfold SyntaxError.horizon
  split
  · rename_i hk
    obtain ⟨k, i⟩ := e
    obtain rfl : k = .nestingTooDeep := hk
    exact h.nesting rfl he
  · exact Nat.lt_succ_of_le (h.ahead he)

theorem early (h : Foretells K true p q) : Foretells K late p q where
  onward := h.onward
  ahead := h.ahead
  nesting _ := h.nesting rfl
  found := h.found
  failed := h.failed

theorem pure (a : α) : Foretells K late (pure a : Parser α) (pure a) where
  onward h := by
    obtain ⟨-, rfl⟩ := pure_eq_ok_iff.1 h
    exact Nat.le_refl _
  ahead h := by cases h
  nesting _ _ _ h := by cases h
  found hcd h _ := by
    obtain ⟨rfl, rfl⟩ := pure_eq_ok_iff.1 h
    exact ⟨_, rfl, hcd⟩
  failed _ h := by cases h

theorem peek : Foretells K late peek peek where
  onward h := by
    obtain ⟨rfl, -⟩ := peek_eq_ok_iff.1 h
    exact Nat.le_refl _
  ahead {c} _ h := by
    obtain ⟨i, _ | ⟨t, ts⟩⟩ := c <;> cases h
  nesting _ {c} _ h := by
    obtain ⟨i, _ | ⟨t, ts⟩⟩ := c <;> cases h
  found {m c c' d t} hcd h hm := by
    obtain ⟨rfl, ts, hts⟩ := peek_eq_ok_iff.1 h
    have hhead := hcd.head hm
    rw [hts, List.head?_cons, List.head?_eq_some_iff] at hhead
    exact ⟨d, peek_eq_ok_iff.2 ⟨rfl, hhead⟩, hcd⟩
  failed {_ c _ _} _ h := by
    obtain ⟨i, _ | ⟨t, ts⟩⟩ := c <;> cases h

/-- A complaint about the next tag, which is not one about nesting. -/
theorem complain {k : Complaint} (hk : k ≠ .nestingTooDeep) :
    Foretells K late (complain k : Parser α) (complain k) where
  onward h := absurd h complain_ne_ok
  ahead h := by
    cases h
    exact Nat.le_refl _
  nesting _ _ _ h := by
    cases h
    exact absurd rfl hk
  found _ h _ := absurd h complain_ne_ok
  failed hcd h _ _ := by
    cases h
    simp only [Parser.complain, hcd.position]

/-- A complaint about nesting does not look at any tag. -/
theorem nestingTooDeep (h : K .nestingTooDeep → q = Parser.complain .nestingTooDeep) :
    Foretells K false (Parser.complain .nestingTooDeep) q where
  onward h := absurd h complain_ne_ok
  ahead h := by
    cases h
    exact Nat.le_refl _
  nesting h := by cases h
  found _ h _ := absurd h complain_ne_ok
  failed hcd he hK _ := by
    cases he
    rw [h hK]
    simp only [Parser.complain, hcd.position]

/-- One parser behind another one. The first one may have looked at the tag behind what it has read, so the second
one must not complain about nesting without having read that tag. -/
theorem bind (hp : Foretells K late p q)
    (hf : ∀ a, (∃ c c', p c = .ok (a, c')) → Foretells K true (f a) (g a)) :
    Foretells K late (p >>= f) (q >>= g) where
  onward h := by
    obtain ⟨a, c₁, ha, hb⟩ := bind_eq_ok_iff.1 h
    exact Nat.le_trans (hp.onward ha) ((hf a ⟨_, _, ha⟩).onward hb)
  ahead h := by
    rcases bind_eq_error_iff.1 h with h | ⟨a, c₁, ha, hb⟩
    · exact hp.ahead h
    · exact Nat.le_trans (hp.onward ha) ((hf a ⟨_, _, ha⟩).ahead hb)
  nesting hlate _ _ h := by
    rcases bind_eq_error_iff.1 h with h | ⟨a, c₁, ha, hb⟩
    · exact hp.nesting hlate h
    · exact Nat.lt_of_le_of_lt (hp.onward ha) ((hf a ⟨_, _, ha⟩).nesting rfl hb)
  found hcd h hm := by
    obtain ⟨a, c₁, ha, hb⟩ := bind_eq_ok_iff.1 h
    have hsecond := hf a ⟨_, _, ha⟩
    -- The second parser only goes on, so the first one has stayed among the tags that agree, too.
    obtain ⟨d₁, hq, hcd₁⟩ := hp.found hcd ha (Nat.lt_of_le_of_lt (hsecond.onward hb) hm)
    obtain ⟨d', hg, hcd'⟩ := hsecond.found hcd₁ hb hm
    exact ⟨d', bind_eq_ok_iff.2 ⟨a, d₁, hq, hg⟩, hcd'⟩
  failed {m c d e} hcd h hK hm := by
    rcases bind_eq_error_iff.1 h with h | ⟨a, c₁, ha, hb⟩
    · exact bind_eq_error_iff.2 (.inl (hp.failed hcd h hK hm))
    · have hsecond := hf a ⟨_, _, ha⟩
      obtain ⟨d₁, hq, hcd₁⟩ := hp.found hcd ha (Nat.lt_of_lt_of_le (hsecond.position_lt_horizon hb) hm)
      exact bind_eq_error_iff.2 (.inr ⟨a, d₁, hq, hsecond.failed hcd₁ hb hK hm⟩)

/-- A parser that reads one tag does not look at the one behind it, so anything may follow. -/
theorem readsOne_bind (hp : ReadsOne p) (hf : ∀ a, (∃ c c', p c = .ok (a, c')) → Foretells K false (f a) (g a)) :
    Foretells K late (p >>= f) (p >>= g) where
  onward h := by
    obtain ⟨a, c₁, ha, hb⟩ := bind_eq_ok_iff.1 h
    obtain rfl := hp.next ha
    exact Nat.le_of_succ_le ((hf a ⟨_, _, ha⟩).onward hb)
  ahead h := by
    rcases bind_eq_error_iff.1 h with h | ⟨a, c₁, ha, hb⟩
    · exact Nat.le_of_eq (hp.here h).1.symm
    · obtain rfl := hp.next ha
      exact Nat.le_of_succ_le ((hf a ⟨_, _, ha⟩).ahead hb)
  nesting _ _ _ h := by
    rcases bind_eq_error_iff.1 h with h | ⟨a, c₁, ha, hb⟩
    · exact absurd rfl (hp.here h).2
    · obtain rfl := hp.next ha
      exact (hf a ⟨_, _, ha⟩).ahead hb
  found {m c c' d b} hcd h hm := by
    obtain ⟨a, c₁, ha, hb⟩ := bind_eq_ok_iff.1 h
    have hsecond := hf a ⟨_, _, ha⟩
    obtain rfl := hp.next ha
    have hlt : c.position < m := Nat.lt_of_le_of_lt (Nat.le_of_succ_le (hsecond.onward hb)) hm
    obtain ⟨d', hg, hcd'⟩ := hsecond.found hcd.next hb hm
    exact ⟨d', bind_eq_ok_iff.2 ⟨a, _, hp.found hcd hlt ha, hg⟩, hcd'⟩
  failed {m c d e} hcd h hK hm := by
    rcases bind_eq_error_iff.1 h with h | ⟨a, c₁, ha, hb⟩
    · obtain ⟨htoken, hk⟩ := hp.here h
      rw [SyntaxError.horizon, if_neg hk, htoken] at hm
      exact bind_eq_error_iff.2 (.inl (hp.failed hcd (Nat.lt_of_succ_le hm) h))
    · have hsecond := hf a ⟨_, _, ha⟩
      obtain rfl := hp.next ha
      have hlt : c.position < m :=
        Nat.lt_of_succ_le (Nat.le_trans (hsecond.ahead hb) (Nat.le_trans e.token_le_horizon hm))
      exact bind_eq_error_iff.2 (.inr ⟨a, _, hp.found hcd hlt ha, hsecond.failed hcd.next hb hK hm⟩)

theorem readsOne (hp : ReadsOne p) : Foretells K late p p := by
  simpa only [bind_pure] using readsOne_bind (f := Pure.pure) (g := Pure.pure) hp fun a _ => pure a

theorem eat (t : Tag) : Foretells K late (eat t) (eat t) := by
  refine .bind .peek fun u _ => ?_
  split
  · exact .readsOne_bind readsOne_advance fun i _ => .pure _
  · exact .pure _

end Foretells

/-- A repetition whose last step complains. -/
inductive Interrupts (step : Parser (Option α)) : Cursor → SyntaxError → Prop
  | stop {c : Cursor} {e : SyntaxError} (h : step c = .error (.wrong e)) : Interrupts step c e
  | more {c c' : Cursor} {a : α} {e : SyntaxError} (h : step c = .ok (some a, c'))
      (hmore : Interrupts step c' e) : Interrupts step c e

theorem manyUpTo_interrupts {step : Parser (Option α)} {n : Nat} {c : Cursor} {e : SyntaxError}
    (h : manyUpTo step n c = .error (.wrong e)) : Interrupts step c e := by
  induction n generalizing c with
  | zero => cases h
  | succ n ih =>
    rcases bind_eq_error_iff.1 h with h | ⟨r, c₁, hstep, h⟩
    · exact .stop h
    · cases r with
      | none => cases h
      | some a =>
        rcases bind_eq_error_iff.1 h with h | ⟨as, c₂, -, h⟩
        · exact .more hstep (ih h)
        · cases h

section Repetition

variable {step step' : Parser (Option α)} {spelled : α → List Leaf → Prop} {follow stop : Cursor → Prop}

/-- There are fewer repetitions than tags, since a step that complains has looked at one. -/
theorem Interrupts.manyUpTo (hstep : Tries step spelled follow stop)
    (hend : ∀ i, step ⟨i, []⟩ = .error .outOfTokens) {n : Nat} {c : Cursor} {e : SyntaxError}
    (h : Interrupts step c e) (hn : c.rest.length ≤ n) : manyUpTo step n c = .error (.wrong e) := by
  induction h generalizing n with
  | @stop c e h =>
    have hpos : 0 < c.rest.length := by
      obtain ⟨i, _ | ⟨t, ts⟩⟩ := c
      · rw [hend] at h
        cases h
      · simp
    obtain ⟨n, rfl⟩ := Nat.exists_eq_succ_of_ne_zero (show n ≠ 0 by omega)
    exact bind_eq_error_iff.2 (.inl h)
  | @more c c₁ a e h _ ih =>
    obtain ⟨ls, hreads, -, hls⟩ := hstep.sound h
    have hpos := List.length_pos_iff.2 hls
    have hlength := hreads.length_rest
    obtain ⟨n, rfl⟩ := Nat.exists_eq_succ_of_ne_zero (show n ≠ 0 by omega)
    exact bind_eq_error_iff.2 (.inr ⟨some a, c₁, h, bind_eq_error_iff.2 (.inl (ih (by omega)))⟩)

namespace Foretells

theorem position_le_of_repeats (h : Foretells K late step step') {c c' : Cursor} {as : List α}
    (hrepeats : Repeats step c as c') : c.position ≤ c'.position := by
  induction hrepeats with
  | stop hstep => exact h.onward hstep
  | more hstep _ ih => exact Nat.le_trans (h.onward hstep) ih

theorem position_le_of_interrupts (h : Foretells K late step step') {c : Cursor} {e : SyntaxError}
    (hinterrupts : Interrupts step c e) : c.position ≤ e.token := by
  induction hinterrupts with
  | stop hstep => exact h.ahead hstep
  | more hstep _ ih => exact Nat.le_trans (h.onward hstep) ih

theorem position_lt_of_interrupts (h : Foretells K true step step') {c : Cursor} {e : SyntaxError}
    (hinterrupts : Interrupts step c e) : c.position < e.horizon := by
  induction hinterrupts with
  | stop hstep => exact h.position_lt_horizon hstep
  | more hstep _ ih => exact Nat.lt_of_le_of_lt (h.onward hstep) ih

theorem repeats (h : Foretells K late step step') {m : Nat} {c c' d : Cursor} {as : List α}
    (hrepeats : Repeats step c as c') (hcd : c.AgreesBefore m d) (hm : c'.position < m) :
    ∃ d', Repeats step' d as d' ∧ c'.AgreesBefore m d' := by
  induction hrepeats generalizing d with
  | stop hstep =>
    obtain ⟨d', hd', hcd'⟩ := h.found hcd hstep hm
    exact ⟨d', .stop hd', hcd'⟩
  | more hstep hmore ih =>
    have hlt := Nat.lt_of_le_of_lt (h.position_le_of_repeats hmore) hm
    obtain ⟨d₁, hd₁, hcd₁⟩ := h.found hcd hstep hlt
    obtain ⟨d', hd', hcd'⟩ := ih hcd₁ hm
    exact ⟨d', .more hd₁ hd', hcd'⟩

theorem interrupts (h : Foretells K true step step') {m : Nat} {c d : Cursor} {e : SyntaxError}
    (hinterrupts : Interrupts step c e) (hcd : c.AgreesBefore m d) (hK : K e.complaint) (hm : e.horizon ≤ m) :
    Interrupts step' d e := by
  induction hinterrupts generalizing d with
  | stop hstep => exact .stop (h.failed hcd hstep hK hm)
  | more hstep hmore ih =>
    obtain ⟨d₁, hd₁, hcd₁⟩ := h.found hcd hstep (Nat.lt_of_lt_of_le (h.position_lt_of_interrupts hmore) hm)
    exact .more hd₁ (ih hcd₁ hK hm)

/-- A repetition. The second parser must not run out of repetitions, so its step has to read something. -/
theorem many (h : Foretells K true step step') (hstep' : Tries step' spelled follow stop)
    (hend : ∀ i, step' ⟨i, []⟩ = .error .outOfTokens) : Foretells K true (many step) (many step') where
  onward h' := h.position_le_of_repeats (manyUpTo_repeats h')
  ahead h' := h.position_le_of_interrupts (manyUpTo_interrupts h')
  nesting _ _ _ h' := by
    simpa [SyntaxError.horizon] using h.position_lt_of_interrupts (manyUpTo_interrupts h')
  found hcd h' hm := by
    obtain ⟨d', hd', hcd'⟩ := h.repeats (manyUpTo_repeats h') hcd hm
    exact ⟨d', hd'.manyUpTo hstep' (Nat.le_refl _), hcd'⟩
  failed hcd h' hK hm :=
    (h.interrupts (manyUpTo_interrupts h') hcd hK hm).manyUpTo hstep' hend (Nat.le_refl _)

end Foretells

end Repetition

end Parser

end LineBasic

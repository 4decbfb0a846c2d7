import LineBasic.Proofs.Grammar.Spelling

/-!
# What parsers read

A parser that succeeds has read the leaves between two cursors. Each combinator is described by what it reads,
so that a parser that is built from combinators succeeds exactly on what its grammar rule spells.

## Main definitions

* `Cursor.Reads`: the leaves between two cursors.
* `Cursor.Sees`: a property of the next tag.
* `Parser.Parses`: a parser succeeds exactly on the leaves that spell its result, if what follows fits.
* `Parser.Tries`: the same for a parser that may find nothing.
* `Parser.Repeats`: what a repetition does; `Parser.Tries.many` says what it parses.
-/

namespace LineBasic

namespace Cursor

/-- The leaves between two cursors. -/
inductive Reads : Cursor → List Leaf → Cursor → Prop
  | done (c : Cursor) : Reads c [] c
  | tag {ls : List Leaf} {c' : Cursor} (t : Tag) (i : TokenId) (ts : List Tag)
      (h : Reads ⟨i + 1, ts⟩ ls c') : Reads ⟨i, t :: ts⟩ ((t, i) :: ls) c'

variable {c c' c'' : Cursor} {ls ls' : List Leaf} {t : Tag} {i : TokenId}

theorem reads_nil_iff : c.Reads [] c' ↔ c = c' := by
  constructor
  · rintro ⟨⟩
    rfl
  · rintro rfl
    exact .done c

theorem reads_cons_iff :
    c.Reads ((t, i) :: ls) c' ↔ c.position = i ∧ ∃ ts, c.rest = t :: ts ∧ Reads ⟨i + 1, ts⟩ ls c' := by
  constructor
  · rintro ⟨⟩
    exact ⟨rfl, _, rfl, ‹_›⟩
  · obtain ⟨position, rest⟩ := c
    rintro ⟨rfl, ts, rfl, h⟩
    exact .tag t position ts h

theorem reads_append_iff : c.Reads (ls ++ ls') c'' ↔ ∃ c', c.Reads ls c' ∧ c'.Reads ls' c'' := by
  induction ls generalizing c with
  | nil => simp [reads_nil_iff]
  | cons l ls ih =>
    obtain ⟨t, i⟩ := l
    simp only [List.cons_append, reads_cons_iff, ih]
    constructor
    · rintro ⟨hi, ts, hts, c', h, h'⟩
      exact ⟨c', ⟨hi, ts, hts, h⟩, h'⟩
    · rintro ⟨c', ⟨hi, ts, hts, h⟩, h'⟩
      exact ⟨hi, ts, hts, c', h, h'⟩

theorem Reads.append (h : c.Reads ls c') (h' : c'.Reads ls' c'') : c.Reads (ls ++ ls') c'' :=
  reads_append_iff.2 ⟨c', h, h'⟩

theorem Reads.cons (h : c.Reads [(t, i)] c') (h' : c'.Reads ls c'') : c.Reads ((t, i) :: ls) c'' :=
  h.append h'

theorem Reads.length_rest (h : c.Reads ls c') : c.rest.length = ls.length + c'.rest.length := by
  induction h with
  | done => simp
  | tag t i ts _ ih => simp only [List.length_cons, ih]; omega

theorem reads_iff : c.Reads ls c' ↔ ∃ front, c.rest = front ++ c'.rest ∧ ls = front.zipIdx c.position ∧
    c'.position = c.position + front.length := by
  constructor
  · intro h
    induction h with
    | done => exact ⟨[], by simp⟩
    | tag t i ts _ ih =>
      obtain ⟨front, hrest, hls, hposition⟩ := ih
      refine ⟨t :: front, ?_, ?_, ?_⟩
      · rw [List.cons_append, ← hrest]
      · rw [List.zipIdx_cons, ← hls]
      · simp only [hposition, List.length_cons]
        omega
  · rintro ⟨front, hrest, hls, hposition⟩
    induction front generalizing c ls with
    | nil =>
      obtain ⟨position, rest⟩ := c
      obtain ⟨position', rest'⟩ := c'
      simp only [List.nil_append, List.length_nil, Nat.add_zero] at hrest hposition
      subst hls hrest hposition
      exact .done _
    | cons t front ih =>
      obtain ⟨position, rest⟩ := c
      dsimp only at hrest hls hposition
      subst hls hrest
      refine .tag t position _ (ih rfl rfl ?_)
      simp only [hposition, List.length_cons]
      omega

theorem Reads.uncons (h : c.Reads ((t, i) :: ls) c') : ∃ c₁, c.Reads [(t, i)] c₁ ∧ c₁.Reads ls c' :=
  reads_append_iff.1 (show c.Reads ([(t, i)] ++ ls) c' from h)

/-- The next tag has a property. There must be one. -/
def Sees (c : Cursor) (p : Tag → Prop) : Prop := ∃ t ts, c.rest = t :: ts ∧ p t

theorem Sees.mono {p q : Tag → Prop} (h : c.Sees p) (hpq : ∀ t, p t → q t) : c.Sees q := by
  obtain ⟨t, ts, hrest, ht⟩ := h
  exact ⟨t, ts, hrest, hpq t ht⟩

/-- There is only one next tag. -/
theorem Sees.exists_both {p q : Tag → Prop} (hp : c.Sees p) (hq : c.Sees q) : ∃ t, p t ∧ q t := by
  obtain ⟨t, ts, hrest, ht⟩ := hp
  obtain ⟨t', ts', hrest', ht'⟩ := hq
  rw [hrest] at hrest'
  cases hrest'
  exact ⟨t, ht, ht'⟩

theorem Reads.sees {p : Tag → Prop} (h : c.Reads ((t, i) :: ls) c') (ht : p t) : c.Sees p := by
  obtain ⟨-, ts, hrest, -⟩ := reads_cons_iff.1 h
  exact ⟨t, ts, hrest, ht⟩

end Cursor

namespace Parser

variable {α β : Type} {c c' c'' : Cursor} {t : Tag} {i : TokenId}

theorem bind_eq_ok_iff {p : Parser α} {f : α → Parser β} {b : β} :
    (p >>= f) c = .ok (b, c'') ↔ ∃ a c', p c = .ok (a, c') ∧ f a c' = .ok (b, c'') := by
  cases h : p c with
  | error e => simp [bind, StateT.bind, Except.bind, h]
  | ok r =>
    obtain ⟨a, c'⟩ := r
    simp only [bind, StateT.bind, Except.bind, h, Except.ok.injEq, Prod.mk.injEq]
    constructor
    · intro hf
      exact ⟨a, c', ⟨rfl, rfl⟩, hf⟩
    · rintro ⟨_, _, ⟨rfl, rfl⟩, hf⟩
      exact hf

theorem bind_eq_error_iff {p : Parser α} {f : α → Parser β} {e : ParseFailure} :
    (p >>= f) c = .error e ↔ p c = .error e ∨ ∃ a c', p c = .ok (a, c') ∧ f a c' = .error e := by
  cases h : p c with
  | error e' => simp [bind, StateT.bind, Except.bind, h]
  | ok r =>
    obtain ⟨a, c'⟩ := r
    simp only [bind, StateT.bind, Except.bind, h, Except.ok.injEq, Prod.mk.injEq, reduceCtorEq, false_or]
    constructor
    · exact fun hf => ⟨a, c', ⟨rfl, rfl⟩, hf⟩
    · rintro ⟨_, _, ⟨rfl, rfl⟩, hf⟩
      exact hf

theorem pure_eq_ok_iff {a b : α} : (pure a : Parser α) c = .ok (b, c') ↔ a = b ∧ c = c' := by
  show Except.ok (a, c) = .ok (b, c') ↔ a = b ∧ c = c'
  simp

theorem peek_eq_ok_iff : peek c = .ok (t, c') ↔ c = c' ∧ ∃ ts, c.rest = t :: ts := by
  unfold peek
  split
  · simp_all
  · simp_all [and_comm, eq_comm]

theorem peek_bind_eq_ok_iff {f : Tag → Parser α} {a : α} :
    (peek >>= f) c = .ok (a, c') ↔ ∃ t ts, c.rest = t :: ts ∧ f t c = .ok (a, c') := by
  simp only [bind_eq_ok_iff, peek_eq_ok_iff]
  constructor
  · rintro ⟨t, _, ⟨rfl, ts, hts⟩, h⟩
    exact ⟨t, ts, hts, h⟩
  · rintro ⟨t, ts, hts, h⟩
    exact ⟨t, c, ⟨rfl, ts, hts⟩, h⟩

theorem complain_ne_ok {k : Complaint} {a : α} : complain k c ≠ .ok (a, c') := by
  simp [complain]

/-- After a look at a tag, going past it reads it. -/
theorem advance_eq_ok_iff {ts : List Tag} (h : c.rest = t :: ts) :
    advance c = .ok (i, c') ↔ c.Reads [(t, i)] c' := by
  obtain ⟨position, rest⟩ := c
  subst h
  simp only [advance, Except.ok.injEq, Prod.mk.injEq, Cursor.reads_cons_iff, Cursor.reads_nil_iff,
    List.tail_cons, List.cons.injEq, true_and, exists_eq_left']
  constructor
  · rintro ⟨rfl, rfl⟩
    exact ⟨rfl, rfl⟩
  · rintro ⟨rfl, rfl⟩
    exact ⟨rfl, rfl⟩

theorem expect_eq_ok_iff : expect t c = .ok (i, c') ↔ c.Reads [(t, i)] c' := by
  simp only [expect, bind_eq_ok_iff, peek_eq_ok_iff]
  constructor
  · rintro ⟨t', _, ⟨rfl, ts, hts⟩, h⟩
    split at h
    · rename_i heq
      subst heq
      exact (advance_eq_ok_iff hts).1 h
    · exact absurd h complain_ne_ok
  · intro h
    obtain ⟨-, ts, hts, -⟩ := Cursor.reads_cons_iff.1 h
    refine ⟨t, c, ⟨rfl, ts, hts⟩, ?_⟩
    rw [if_pos rfl]
    exact (advance_eq_ok_iff hts).2 h

theorem eat_eq_some_iff : eat t c = .ok (some i, c') ↔ c.Reads [(t, i)] c' := by
  simp only [eat, bind_eq_ok_iff, peek_eq_ok_iff]
  constructor
  · rintro ⟨t', _, ⟨rfl, ts, hts⟩, h⟩
    split at h
    · rename_i heq
      subst heq
      obtain ⟨j, _, hadvance, hpure⟩ := bind_eq_ok_iff.1 h
      obtain ⟨hj, rfl⟩ := pure_eq_ok_iff.1 hpure
      cases hj
      exact (advance_eq_ok_iff hts).1 hadvance
    · exact absurd (pure_eq_ok_iff.1 h).1 (by simp)
  · intro h
    obtain ⟨-, ts, hts, -⟩ := Cursor.reads_cons_iff.1 h
    refine ⟨t, c, ⟨rfl, ts, hts⟩, ?_⟩
    rw [if_pos rfl]
    exact bind_eq_ok_iff.2 ⟨i, c', (advance_eq_ok_iff hts).2 h, pure_eq_ok_iff.2 ⟨rfl, rfl⟩⟩

theorem eat_eq_none_iff : eat t c = .ok (none, c') ↔ c = c' ∧ c.Sees (· ≠ t) := by
  simp only [eat, bind_eq_ok_iff, peek_eq_ok_iff]
  constructor
  · rintro ⟨t', _, ⟨rfl, ts, hts⟩, h⟩
    split at h
    · obtain ⟨j, _, -, hpure⟩ := bind_eq_ok_iff.1 h
      exact absurd (pure_eq_ok_iff.1 hpure).1 (by simp)
    · rename_i hne
      exact ⟨(pure_eq_ok_iff.1 h).2, t', ts, hts, hne⟩
  · rintro ⟨rfl, t', ts, hts, hne⟩
    refine ⟨t', c, ⟨rfl, ts, hts⟩, ?_⟩
    rw [if_neg hne]
    exact pure_eq_ok_iff.2 ⟨rfl, rfl⟩

theorem bind_eq_of_eq_ok {p : Parser α} {a : α} (h : p c = .ok (a, c')) (f : α → Parser β) :
    (p >>= f) c = f a c' := by
  simp [bind, StateT.bind, Except.bind, h]

theorem peek_bind_of_reads {ls : List Leaf} (h : c.Reads ((t, i) :: ls) c') (f : Tag → Parser α) :
    (peek >>= f) c = f t c := by
  obtain ⟨-, ts, hts, -⟩ := Cursor.reads_cons_iff.1 h
  exact bind_eq_of_eq_ok (peek_eq_ok_iff.2 ⟨rfl, ts, hts⟩) f

theorem advance_bind_of_reads (h : c.Reads [(t, i)] c') (f : TokenId → Parser α) :
    (advance >>= f) c = f i c' := by
  obtain ⟨-, ts, hts, -⟩ := Cursor.reads_cons_iff.1 h
  exact bind_eq_of_eq_ok ((advance_eq_ok_iff hts).2 h) f

theorem expect_bind_of_reads (h : c.Reads [(t, i)] c') (f : TokenId → Parser α) :
    (expect t >>= f) c = f i c' :=
  bind_eq_of_eq_ok (expect_eq_ok_iff.2 h) f

/-- A parser succeeds only on the leaves that spell its result, and it does so whenever a certain kind of tags
stands behind them. -/
structure Parses (p : Parser α) (spelled : α → List Leaf → Prop) (follow : Cursor → Prop) : Prop where
  sound : ∀ {c c' : Cursor} {a : α}, p c = .ok (a, c') → ∃ ls, c.Reads ls c' ∧ spelled a ls
  complete : ∀ {c c' : Cursor} {a : α} {ls : List Leaf}, c.Reads ls c' → spelled a ls → follow c' →
    p c = .ok (a, c')

/-- A parser that may find nothing. If it finds something, it has read leaves that spell it; it finds nothing
only at a tag that it has looked at, and whenever a certain kind of tags comes next. -/
structure Tries (step : Parser (Option α)) (spelled : α → List Leaf → Prop) (follow stop : Cursor → Prop) :
    Prop where
  sound : ∀ {c c' : Cursor} {a : α}, step c = .ok (some a, c') →
    ∃ ls, c.Reads ls c' ∧ spelled a ls ∧ ls ≠ []
  complete : ∀ {c c' : Cursor} {a : α} {ls : List Leaf}, c.Reads ls c' → spelled a ls → follow c' →
    step c = .ok (some a, c')
  nothing : ∀ {c c' : Cursor}, step c = .ok (none, c') → c = c' ∧ 0 < c.rest.length
  stops : ∀ {c : Cursor}, stop c → step c = .ok (none, c)

/-- A parser that goes on behind certain tags, and finds nothing at any other tag. -/
theorem Parses.behind {α β γ : Type} {p : Parser β} {step : Parser (Option γ)}
    {spelled : β → List Leaf → Prop} {spelled' : γ → List Leaf → Prop} {follow stop : Cursor → Prop}
    (hp : Parses p spelled follow) (tag : α → Tag) (result : α → β → γ)
    (hspelled : ∀ {a b ls}, Behind (tag a) spelled b ls → spelled' (result a b) ls)
    (hspells : ∀ {r ls}, spelled' r ls → ∃ a b, r = result a b ∧ Behind (tag a) spelled b ls)
    (hstop : ∀ {c}, stop c → c.Sees fun t => ∀ a, t ≠ tag a)
    (hbegin : ∀ {a i c c'}, c.Reads [(tag a, i)] c' → step c = (do return some (result a (← p))) c')
    (hother : ∀ {c}, (c.Sees fun t => ∀ a, t ≠ tag a) → step c = .ok (none, c))
    (hend : ∀ {c r}, c.rest = [] → step c ≠ .ok r) : Tries step spelled' follow stop := by
  -- The step has looked at a tag, so it has begun at one of its own or has found nothing.
  have look : ∀ {c : Cursor} {r : Option γ × Cursor}, step c = .ok r →
      (∃ a i c', c.Reads [(tag a, i)] c') ∨ c.Sees fun t => ∀ a, t ≠ tag a := by
    intro c r h
    match hts : c.rest with
    | [] => exact absurd h (hend hts)
    | t :: ts =>
      by_cases ht : ∃ a, t = tag a
      · obtain ⟨a, rfl⟩ := ht
        exact .inl ⟨a, c.position, ⟨c.position + 1, ts⟩, Cursor.reads_cons_iff.2 ⟨rfl, ts, hts, .done _⟩⟩
      · exact .inr ⟨t, ts, hts, fun a ha => ht ⟨a, ha⟩⟩
  constructor
  case sound =>
    intro c c' r h
    rcases look h with ⟨a, i, c₁, hi⟩ | hsees
    · rw [hbegin hi] at h
      obtain ⟨b, c₂, hb, h⟩ := bind_eq_ok_iff.1 h
      obtain ⟨hr, rfl⟩ := pure_eq_ok_iff.1 h
      cases hr
      obtain ⟨ls, hreads, hb⟩ := hp.sound hb
      exact ⟨_, hi.cons hreads, hspelled ⟨i, ls, rfl, hb⟩, by simp⟩
    · rw [hother hsees] at h
      cases h
  case complete =>
    intro c c' r ls hreads hr hfollow
    obtain ⟨a, b, rfl, i, ls, rfl, hb⟩ := hspells hr
    obtain ⟨c₁, hi, hrest⟩ := hreads.uncons
    rw [hbegin hi, bind_eq_of_eq_ok (hp.complete hrest hb hfollow)]
    rfl
  case nothing =>
    intro c c' h
    rcases look h with ⟨a, i, c₁, hi⟩ | hsees
    · rw [hbegin hi] at h
      obtain ⟨b, c₂, -, h⟩ := bind_eq_ok_iff.1 h
      exact absurd (pure_eq_ok_iff.1 h).1 (by simp)
    · rw [hother hsees] at h
      obtain ⟨t, ts, hts, -⟩ := hsees
      cases h
      exact ⟨rfl, by simp [hts]⟩
  case stops =>
    intro c hc
    exact hother (hstop hc)

/-- What a repetition does: the step finds something as often as there are results, and then nothing. -/
inductive Repeats (step : Parser (Option α)) : Cursor → List α → Cursor → Prop
  | stop {c c' : Cursor} (h : step c = .ok (none, c')) : Repeats step c [] c'
  | more {c c' c'' : Cursor} {a : α} {as : List α} (h : step c = .ok (some a, c'))
      (hmore : Repeats step c' as c'') : Repeats step c (a :: as) c''

theorem manyUpTo_repeats {step : Parser (Option α)} {n : Nat} {as : List α}
    (h : manyUpTo step n c = .ok (as, c')) : Repeats step c as c' := by
  induction n generalizing c as with
  | zero => cases h
  | succ n ih =>
    obtain ⟨r, c₁, hstep, h⟩ := bind_eq_ok_iff.1 h
    cases r with
    | none =>
      obtain ⟨rfl, rfl⟩ := pure_eq_ok_iff.1 h
      exact .stop hstep
    | some a =>
      obtain ⟨as', c₂, hmore, h⟩ := bind_eq_ok_iff.1 h
      obtain ⟨rfl, rfl⟩ := pure_eq_ok_iff.1 h
      exact .more hstep (ih hmore)

section Repetition

variable {step : Parser (Option α)} {spelled : α → List Leaf → Prop} {follow stop : Cursor → Prop}

/-- There are no more repetitions than tags, since each of them reads one. -/
theorem Repeats.manyUpTo (hstep : Tries step spelled follow stop) {n : Nat} {as : List α}
    (h : Repeats step c as c') (hn : c.rest.length ≤ n) : manyUpTo step n c = .ok (as, c') := by
  induction h generalizing n with
  | stop h =>
    have hpos := (hstep.nothing h).2
    obtain ⟨m, rfl⟩ := Nat.exists_eq_succ_of_ne_zero (show n ≠ 0 by omega)
    exact bind_eq_ok_iff.2 ⟨none, _, h, pure_eq_ok_iff.2 ⟨rfl, rfl⟩⟩
  | @more c c₁ c' a as h _ ih =>
    obtain ⟨ls, hreads, -, hls⟩ := hstep.sound h
    have hpos := List.length_pos_iff.2 hls
    have hlength := hreads.length_rest
    obtain ⟨m, rfl⟩ := Nat.exists_eq_succ_of_ne_zero (show n ≠ 0 by omega)
    refine bind_eq_ok_iff.2 ⟨some a, c₁, h, bind_eq_ok_iff.2 ⟨as, c', ih ?_, pure_eq_ok_iff.2 ⟨rfl, rfl⟩⟩⟩
    omega

theorem Repeats.reads (hstep : Tries step spelled follow stop) {as : List α} (h : Repeats step c as c') :
    ∃ ls, c.Reads ls c' ∧ ListSpelledBy spelled as ls := by
  induction h with
  | stop h =>
    obtain ⟨rfl, -⟩ := hstep.nothing h
    exact ⟨[], .done _, .nil⟩
  | more h _ ih =>
    obtain ⟨ls, hreads, ha, -⟩ := hstep.sound h
    obtain ⟨ls', hreads', has⟩ := ih
    exact ⟨ls ++ ls', hreads.append hreads', .cons ha has⟩

/-- In front of a list stands its first member, or what ends the list. -/
theorem follow_of_listSpelledBy {as : List α} {ls : List Leaf} (has : ListSpelledBy spelled as ls)
    (hstop : ∀ {c}, stop c → follow c)
    (hnext : ∀ {c c' : Cursor} {a : α} {ls : List Leaf}, c.Reads ls c' → spelled a ls → follow c)
    (hreads : c.Reads ls c') (hc : stop c') : follow c := by
  cases has with
  | nil =>
    obtain rfl := Cursor.reads_nil_iff.1 hreads
    exact hstop hc
  | cons ha _ =>
    obtain ⟨c₁, hreads, -⟩ := Cursor.reads_append_iff.1 hreads
    exact hnext hreads ha

theorem Repeats.of_reads (hstep : Tries step spelled follow stop) {as : List α} {ls : List Leaf}
    (hstop : ∀ {c}, stop c → follow c)
    (hnext : ∀ {c c' : Cursor} {a : α} {ls : List Leaf}, c.Reads ls c' → spelled a ls → follow c)
    (hreads : c.Reads ls c') (has : ListSpelledBy spelled as ls) (hc : stop c') : Repeats step c as c' := by
  induction has generalizing c with
  | nil =>
    obtain rfl := Cursor.reads_nil_iff.1 hreads
    exact .stop (hstep.stops hc)
  | @cons a as ls ls' ha has ih =>
    obtain ⟨c₁, hreads₁, hreads₂⟩ := Cursor.reads_append_iff.1 hreads
    have hfollow := follow_of_listSpelledBy has hstop hnext hreads₂ hc
    exact .more (hstep.complete hreads₁ ha hfollow) (ih hreads₂)

/-- A repetition parses a list, if what follows a member can be the next one. -/
theorem Tries.many (hstep : Tries step spelled follow stop) (hstop : ∀ {c}, stop c → follow c)
    (hnext : ∀ {c c' : Cursor} {a : α} {ls : List Leaf}, c.Reads ls c' → spelled a ls → follow c) :
    Parses (many step) (ListSpelledBy spelled) stop where
  sound h := (manyUpTo_repeats h).reads hstep
  complete hreads has hc := (Repeats.of_reads hstep hstop hnext hreads has hc).manyUpTo hstep (Nat.le_refl _)

end Repetition

end Parser

end LineBasic

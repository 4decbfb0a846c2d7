import LineBasic.Proofs.Grammar.Lookahead

/-!
# What can follow the tags in front of a complaint

Whatever the parser of expressions complains about, the leaves that it has read begin an expression. If it asks for
a certain tag, they do so together with this tag.

## Main definitions

* `Opens`: the leaves that have been read in front of a complaint can be completed.
* `Parser.Breaks`: what is read in front of a complaint.

## Main results

* `Grammar.breaks_expression`: complaints about expressions.
-/

namespace LineBasic

/-- A statement can begin with this tag. -/
def Tag.StartsStatement (t : Tag) : Prop := ∃ k : Keyword, t = .keyword k ∧ k ≠ .then

@[simp] theorem Tag.startsStatement_iff {t : Tag} : t.StartsStatement ↔ ∃ k : Keyword, t = .keyword k ∧ k ≠ .then :=
  .rfl

/-- The leaves in front of a complaint can be completed so that the whole has a property, and if the complaint asks
for a tag, that one can come first. No complaint asks for the beginning of a statement. -/
def Opens (whole : List Leaf → Prop) (e : SyntaxError) (ls : List Leaf) : Prop :=
  (∀ t, e.complaint.wanted? = some t → ¬ t.StartsStatement) ∧
    ∃ back : List Tag, whole (ls ++ (e.complaint.wanted?.toList ++ back).zipIdx e.token)

/-- The leaves spell an expression of a level. -/
def Level.Spells (l : Level) (ls : List Leaf) : Prop := ∃ e : ParsedExpr l, e.SpelledBy ls

namespace Opens

variable {whole whole' : List Leaf → Prop} {e : SyntaxError} {k : Complaint} {t : Tag} {i : TokenId} {ls : List Leaf}

/-- What can be completed to a part can be completed to the whole, if the rest of the whole can stand anywhere. -/
theorem extend (front : List Leaf) (h : Opens whole e ls)
    (hwhole : ∀ ls, whole ls → ∀ n, ∃ back : List Tag, whole' (front ++ ls ++ back.zipIdx n)) :
    Opens whole' e (front ++ ls) := by
  obtain ⟨hplain, back, h⟩ := h
  obtain ⟨more, h⟩ := hwhole _ h (e.token + (e.complaint.wanted?.toList ++ back).length)
  refine ⟨hplain, back ++ more, ?_⟩
  rw [← List.append_assoc e.complaint.wanted?.toList, List.zipIdx_append]
  simpa only [List.append_assoc] using h

/-- The part comes last. -/
theorem last (front : List Leaf) (h : Opens whole e ls) (hwhole : ∀ ls, whole ls → whole' (front ++ ls)) :
    Opens whole' e (front ++ ls) :=
  h.extend front fun ls hls _ => ⟨[], by simpa using hwhole ls hls⟩

theorem mono (h : Opens whole e ls) (hwhole : ∀ ls, whole ls → whole' ls) : Opens whole' e ls := h.last [] hwhole

/-- The part comes last, and another leaf in front of it. -/
theorem behind {front : List Leaf} {l : Leaf} (h : Opens whole e ls)
    (hwhole : ∀ ls, whole ls → whole' (front ++ l :: ls)) : Opens whole' e (front ++ l :: ls) := by
  simpa using h.last (front ++ [l]) (by simpa using hwhole)

/-- A complaint that asks for a tag. -/
theorem wanted (ht : ¬ t.StartsStatement) (back : List Tag) (h : whole (ls ++ (t, i) :: back.zipIdx (i + 1))) :
    Opens whole ⟨.expectToken t, i⟩ ls := by
  refine ⟨?_, back, by simpa [Complaint.wanted?] using h⟩
  rintro u hu
  obtain rfl : t = u := Option.some.inj hu
  exact ht

/-- A complaint that does not ask for a tag. -/
theorem unwanted (hk : k.wanted? = none) (back : List Tag) (h : whole (ls ++ back.zipIdx i)) :
    Opens whole ⟨k, i⟩ ls :=
  ⟨by simp [hk], back, by simpa [hk] using h⟩

end Opens

namespace Parser

variable {α β : Type} {c : Cursor} {broken broken' : SyntaxError → List Leaf → Prop}

/-- A complaint of the parser has a property together with the leaves that were read in front of it. -/
def Breaks (c : Cursor) (p : Parser α) (broken : SyntaxError → List Leaf → Prop) : Prop :=
  ∀ e, p c = .error (.wrong e) → ∃ ls c', c.Reads ls c' ∧ c'.position = e.token ∧ broken e ls

namespace Breaks

variable {p : Parser α} {f : α → Parser β}

theorem mono (h : Breaks c p broken) (hbroken : ∀ e ls, broken e ls → broken' e ls) : Breaks c p broken' := by
  intro e he
  obtain ⟨ls, c', hreads, hposition, hls⟩ := h e he
  exact ⟨ls, c', hreads, hposition, hbroken e ls hls⟩

theorem pure (a : α) : Breaks c (pure a : Parser α) broken := by
  intro e h
  cases h

theorem complain {k : Complaint} (h : broken ⟨k, c.position⟩ []) : Breaks c (complain k : Parser α) broken := by
  intro e he
  cases he
  exact ⟨[], c, .done c, rfl, h⟩

theorem peek_bind {f : Tag → Parser β} (h : ∀ t ts, c.rest = t :: ts → Breaks c (f t) broken) :
    Breaks c (peek >>= f) broken := by
  intro e he
  rcases bind_eq_error_iff.1 he with he | ⟨t, c', ht, he⟩
  · obtain ⟨i, _ | ⟨t, ts⟩⟩ := c <;> cases he
  · obtain ⟨rfl, ts, hts⟩ := peek_eq_ok_iff.1 ht
    exact h t ts hts e he

/-- What the first parser reads goes in front of what the second one reads. -/
theorem bind (hp : Breaks c p broken)
    (hf : ∀ a c', p c = .ok (a, c') → ∃ ls, c.Reads ls c' ∧ Breaks c' (f a) fun e ls' => broken e (ls ++ ls')) :
    Breaks c (p >>= f) broken := by
  intro e he
  rcases bind_eq_error_iff.1 he with he | ⟨a, c', ha, he⟩
  · exact hp e he
  · obtain ⟨ls, hreads, hbreaks⟩ := hf a c' ha
    obtain ⟨ls', c'', hreads', hposition, hbroken⟩ := hbreaks e he
    exact ⟨_, c'', hreads.append hreads', hposition, hbroken⟩

theorem map {g : α → β} (hp : Breaks c p broken) : Breaks c (do return g (← p)) broken := by
  intro e he
  rcases bind_eq_error_iff.1 he with he | ⟨a, c', -, he⟩
  · exact hp e he
  · cases he

/-- After a look at a tag, going past it reads it. -/
theorem advance_bind {f : TokenId → Parser β} {t : Tag} {ts : List Tag} (hts : c.rest = t :: ts)
    (h : ∀ i c', Breaks c' (f i) fun e ls => broken e ((t, i) :: ls)) : Breaks c (advance >>= f) broken :=
  bind (fun _ h => by cases h) fun i c' hi => ⟨_, (advance_eq_ok_iff hts).1 hi, h i c'⟩

theorem expect_bind {f : TokenId → Parser β} {t : Tag} (ht : broken ⟨.expectToken t, c.position⟩ [])
    (h : ∀ i c', Breaks c' (f i) fun e ls => broken e ((t, i) :: ls)) : Breaks c (expect t >>= f) broken := by
  refine bind ?_ fun i c' hi => ⟨_, expect_eq_ok_iff.1 hi, h i c'⟩
  refine peek_bind fun u us hus => ?_
  split
  · intro e he
    cases he
  · exact complain ht

theorem eat (t : Tag) : Breaks c (eat t) broken := by
  refine peek_bind fun u us hus => ?_
  split
  · exact advance_bind hus fun _ _ => pure _
  · exact pure _

theorem eat_bind {f : Option TokenId → Parser β} {t : Tag} (hnone : Breaks c (f none) broken)
    (hsome : ∀ i c', Breaks c' (f (some i)) fun e ls => broken e ((t, i) :: ls)) :
    Breaks c (Parser.eat t >>= f) broken := by
  refine bind (eat t) fun i? c' hi => ?_
  cases i? with
  | none =>
    obtain ⟨rfl, -⟩ := eat_eq_none_iff.1 hi
    exact ⟨[], .done c, hnone⟩
  | some i => exact ⟨_, eat_eq_some_iff.1 hi, hsome i c'⟩

/-- A repetition, with an invariant of what has been read before. The last step that finds something need not keep
it if the repetition ends there. -/
theorem many {step : Parser (Option α)} (before : List Leaf → Prop) {ls : List Leaf} (hls : before ls)
    (hstep : ∀ ls c, before ls → Breaks c step fun e ls' => broken e (ls ++ ls'))
    (hmore : ∀ ls c c' a, before ls → step c = .ok (some a, c') → (∀ c'', step c' ≠ .ok (none, c'')) →
      ∃ ls', c.Reads ls' c' ∧ before (ls ++ ls')) :
    Breaks c (many step) fun e ls' => broken e (ls ++ ls') := by
  intro e he
  have hinterrupts := manyUpTo_interrupts he
  clear he
  induction hinterrupts generalizing ls with
  | stop h => exact hstep _ _ hls _ h
  | @more c c₁ a e h hinterrupts ih =>
    -- Something comes behind this step, so it keeps the invariant.
    have hgoes : ∀ c'', step c₁ ≠ .ok (none, c'') := by
      intro c'' h'
      cases hinterrupts with
      | stop h => cases h.symm.trans h'
      | more h _ => cases h.symm.trans h'
    obtain ⟨ls₁, hreads₁, hbefore⟩ := hmore _ _ _ _ hls h hgoes
    obtain ⟨ls₂, c', hreads₂, hposition, hbroken⟩ := ih hbefore
    exact ⟨_, c', hreads₁.append hreads₂, hposition, by simpa only [List.append_assoc] using hbroken⟩

end Breaks

end Parser

namespace Grammar

open LineBasic.Parser

variable {levels : Nat} {c : Cursor}

section Expressions

variable {nested : Parser (ParsedExpr .sum)}

theorem spells_var (v : TokenId) : Level.sum.Spells [(.var, v)] := ⟨_, .unsigned (.factor (.var v))⟩

/-- A sum and the closing parenthesis behind it. -/
theorem breaks_closed {α : Type} {whole : List Leaf → Prop} (front : List Leaf)
    (hnested : Parses nested (Expr.SpelledWithin levels) Cursor.EndsSum)
    (hbreaks : ∀ c, Breaks c nested (Opens Level.sum.Spells))
    (hwhole : ∀ {ls} j, Level.sum.Spells ls → whole (front ++ ls ++ [(Tag.rparen, j)])) {g : ParsedExpr .sum → α} :
    Breaks c (do let e ← nested; let _ ← expect .rparen; return g e) fun e ls => Opens whole e (front ++ ls) := by
  refine .bind ((hbreaks c).mono fun e ls h => h.extend front fun ls hls n => ⟨[.rparen], hwhole n hls⟩)
    fun e c' he => ?_
  obtain ⟨ls, hreads, he, -⟩ := hnested.sound he
  refine ⟨ls, hreads, .expect_bind ?_ fun _ _ => .pure _⟩
  exact .wanted (by simp) [] (by simpa using hwhole _ ⟨e, he⟩)

theorem breaks_arguments (hnested : Parses nested (Expr.SpelledWithin levels) Cursor.EndsSum)
    (hbreaks : ∀ c, Breaks c nested (Opens Level.sum.Spells)) (mark : TokenId) (f : Builtin) :
    Breaks c (arguments nested mark f) fun e ls => Opens Level.operand.Spells e ((.builtin f, mark) :: ls) := by
  cases f with
  | abs =>
    have hwhole : ∀ {ls} i j, Level.sum.Spells ls →
        Level.operand.Spells ([(Tag.builtin .abs, mark), (Tag.lparen, i)] ++ ls ++ [(Tag.rparen, j)]) :=
      fun i j ⟨_, he⟩ => ⟨_, .abs mark i j he⟩
    exact .expect_bind (.wanted (by simp) [.var, .rparen] (hwhole _ _ (spells_var _)))
      fun i _ => breaks_closed [_, _] hnested hbreaks (hwhole i)
  | rnd =>
    have hwhole : ∀ {ls} i j, Level.sum.Spells ls →
        Level.operand.Spells ([(Tag.builtin .rnd, mark), (Tag.lparen, i)] ++ ls ++ [(Tag.rparen, j)]) :=
      fun i j ⟨_, he⟩ => ⟨_, .rnd mark i j he⟩
    exact .expect_bind (.wanted (by simp) [.var, .rparen] (hwhole _ _ (spells_var _)))
      fun i _ => breaks_closed [_, _] hnested hbreaks (hwhole i)
  | mod =>
    have hwhole : ∀ {ls₁ ls₂} i j k, Level.sum.Spells ls₁ → Level.sum.Spells ls₂ →
        Level.operand.Spells
          ([(Tag.builtin .mod, mark), (Tag.lparen, i)] ++ ls₁ ++ (Tag.comma, j) :: ls₂ ++ [(Tag.rparen, k)]) :=
      fun i j k ⟨_, he₁⟩ ⟨_, he₂⟩ => ⟨_, .mod mark i j k he₁ he₂⟩
    -- Variables stand for the arguments that have not been read yet.
    refine .expect_bind (.wanted (by simp) [.var, .comma, .var, .rparen] (hwhole _ _ _ (spells_var _) (spells_var _)))
      fun i c => .bind ((hbreaks c).mono fun e ls h => h.extend [_, _] fun ls hls n =>
        ⟨[.comma, .var, .rparen], by simpa using hwhole i n (n + 2) hls (spells_var _)⟩) fun e c' he => ?_
    obtain ⟨ls, hreads, he, -⟩ := hnested.sound he
    refine ⟨ls, hreads, .expect_bind ?_ fun j c => ?_⟩
    · exact .wanted (by simp) [.var, .rparen] (by simpa using hwhole i _ _ ⟨e, he⟩ (spells_var _))
    · refine (breaks_closed ([(Tag.builtin .mod, mark), (Tag.lparen, i)] ++ ls ++ [(Tag.comma, j)]) hnested hbreaks
        fun k hls => ?_).mono fun e ls h => by simpa using h
      simpa using hwhole i j k ⟨e, he⟩ hls

theorem breaks_operand (hnested : Parses nested (Expr.SpelledWithin levels) Cursor.EndsSum)
    (hbreaks : ∀ c, Breaks c nested (Opens Level.sum.Spells)) (c : Cursor) :
    Breaks c (operand nested) (Opens Level.operand.Spells) := by
  refine .peek_bind fun t ts hts => ?_
  cases t with
  | var => exact .advance_bind hts fun _ _ => .pure _
  | number => exact .advance_bind hts fun _ _ => .pure _
  | lparen =>
    exact .advance_bind hts fun i _ => breaks_closed [_] hnested hbreaks fun j ⟨_, he⟩ => ⟨_, .group i j he⟩
  | builtin f => exact .advance_bind hts fun mark _ => breaks_arguments hnested hbreaks mark f
  | _ => exact .complain (.unwanted rfl [.var] ⟨_, .var _⟩)

theorem breaks_product (hnested : Parses nested (Expr.SpelledWithin levels) Cursor.EndsSum)
    (hbreaks : ∀ c, Breaks c nested (Opens Level.sum.Spells)) (c : Cursor) :
    Breaks c (product nested) (Opens Level.product.Spells) := by
  have hoperand := breaks_operand hnested hbreaks
  refine .bind ((hoperand c).mono fun e ls h => h.mono fun ls ⟨_, ha⟩ => ⟨_, .factor ha⟩) fun a c' ha => ?_
  obtain ⟨ls, hreads, ha, -⟩ := (parses_operand hnested).sound ha
  -- What has been read up to an operator is a product by itself.
  refine ⟨ls, hreads, .map (.many Level.product.Spells ⟨_, .factor ha⟩ ?_ ?_)⟩
  · rintro ls c ⟨p, hp⟩
    refine .peek_bind fun t ts hts => ?_
    cases t with
    | scale o =>
      exact .advance_bind hts fun i c => .map ((hoperand c).mono fun e ls h =>
        h.behind fun ls ⟨_, ha⟩ => ⟨_, .scale o i hp ha⟩)
    | _ => exact .pure _
  · rintro ls c c' ⟨o, b⟩ ⟨p, hp⟩ h -
    obtain ⟨ls', hreads, ⟨i, ls'', rfl, hb, -⟩, -⟩ := (tries_nextFactor hnested).sound h
    exact ⟨_, hreads, _, .scale o i hp hb⟩

theorem breaks_sum (hnested : Parses nested (Expr.SpelledWithin levels) Cursor.EndsSum)
    (hbreaks : ∀ c, Breaks c nested (Opens Level.sum.Spells)) (c : Cursor) :
    Breaks c (sum nested) (Opens Level.sum.Spells) := by
  have hproduct := breaks_product hnested hbreaks
  refine .bind (.peek_bind fun t ts hts => ?_) fun s c₁ hs => ?_
  · cases t with
    | sign s => exact .advance_bind hts fun _ _ => .pure _
    | _ => exact .pure _
  obtain ⟨front, hreads, hfront⟩ := leadingSign_sound hs
  have hfirst : ∀ {p : ParsedExpr .product} {ls}, p.SpelledBy ls → Level.sum.Spells (front ++ ls) :=
    fun hp => ⟨_, hfront hp⟩
  refine ⟨front, hreads, .bind ((hproduct c₁).mono fun e ls h => h.last front fun ls ⟨_, hp⟩ => hfirst hp)
    fun p c' hp => ?_⟩
  obtain ⟨ls, hreads, hp, -⟩ := (parses_product hnested).sound hp
  refine ⟨ls, hreads, .map ?_⟩
  refine Breaks.mono (.many Level.sum.Spells (hfirst hp) ?_ ?_) fun e ls h => by simpa using h
  · rintro ls c ⟨e, he⟩
    refine .peek_bind fun t ts hts => ?_
    cases t with
    | sign s =>
      exact .advance_bind hts fun i c => .map ((hproduct c).mono fun e ls h =>
        h.behind fun ls ⟨_, hp⟩ => ⟨_, .add s i he hp⟩)
    | _ => exact .pure _
  · rintro ls c c' ⟨s, q⟩ ⟨e, he⟩ h -
    obtain ⟨ls', hreads, ⟨i, ls'', rfl, hq, -⟩, -⟩ := (tries_nextTerm hnested).sound h
    exact ⟨_, hreads, _, .add s i he hq⟩

/-- In front of a complaint about an expression stands the beginning of one, however deep it is nested. -/
theorem breaks_expression (levels : Nat) (c : Cursor) : Breaks c (expression levels) (Opens Level.sum.Spells) := by
  induction levels generalizing c with
  | zero => exact .complain (.unwanted rfl [.var] (spells_var _))
  | succ levels ih => exact breaks_sum (parses_expression levels) ih c

end Expressions

end Grammar

end LineBasic

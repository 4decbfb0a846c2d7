import LineBasic.Proofs.Grammar.Reads

/-!
# Parsing expressions

The parser of expressions succeeds exactly on the leaves that spell its result within the levels of nesting that
it is given, provided that no operator follows that would carry the expression on.

## Main results

* `Grammar.parses_operand`, `Grammar.parses_product`, `Grammar.parses_sum`: the three layers, given a parser for
  the expressions inside.
* `Grammar.parses_expression`: whole expressions.
-/

namespace LineBasic

/-- The leaves spell an expression that keeps to some levels of nesting. -/
def Expr.SpelledWithin (levels : Nat) {l : Level} (e : ParsedExpr l) (ls : List Leaf) : Prop :=
  e.SpelledBy ls ∧ e.nesting ≤ levels

/-- The leaves spell an operator and a further operand of a product. -/
def FactorSpelledWithin (levels : Nat) (f : Scale × ParsedExpr .operand) (ls : List Leaf) : Prop :=
  Behind (.scale f.1) (Expr.SpelledWithin levels) f.2 ls

/-- The leaves spell a sign and a further product of a sum. -/
def TermSpelledWithin (levels : Nat) (t : Sign × ParsedExpr .product) (ls : List Leaf) : Prop :=
  Behind (.sign t.1) (Expr.SpelledWithin levels) t.2 ls

/-- The tag does not carry a product on. -/
def Tag.EndsProduct (t : Tag) : Prop := ∀ o, t ≠ .scale o

/-- The tag does not carry a sum on, nor its last product. -/
def Tag.EndsSum (t : Tag) : Prop := (∀ s, t ≠ .sign s) ∧ t.EndsProduct

/-- Nothing that follows carries a product on. -/
def Cursor.EndsProduct (c : Cursor) : Prop := c.Sees Tag.EndsProduct

/-- Nothing that follows carries a sum on. -/
def Cursor.EndsSum (c : Cursor) : Prop := c.Sees Tag.EndsSum

theorem Cursor.EndsSum.endsProduct {c : Cursor} (h : c.EndsSum) : c.EndsProduct := h.mono fun _ ht => ht.2

theorem Cursor.Reads.endsSum {c c' : Cursor} {t : Tag} {i : TokenId} {ls : List Leaf}
    (h : c.Reads ((t, i) :: ls) c') (ht : t.EndsSum := by simp [Tag.EndsSum, Tag.EndsProduct]) :
    c.EndsSum :=
  h.sees ht

theorem ListSpelledBy.concat {α : Type} {spelled : α → List Leaf → Prop} {as : List α} {a : α}
    {ls ls' : List Leaf} (has : ListSpelledBy spelled as ls) (ha : spelled a ls') :
    ListSpelledBy spelled (as ++ [a]) (ls ++ ls') := by
  induction has with
  | nil => simpa using ListSpelledBy.cons ha .nil
  | cons hb _ ih => simpa using ListSpelledBy.cons hb ih

namespace Expr

variable {V N M : Type} {levels : Nat} {ls : List Leaf}

theorem ofFactors_concat (a b : Expr V N M .operand) (o : Scale)
    (more : List (Scale × Expr V N M .operand)) :
    ofFactors a (more ++ [(o, b)]) = .scale (ofFactors a more) o b := by
  simp [ofFactors]

theorem ofTerms_concat (s t : Sign) (p q : Expr V N M .product)
    (more : List (Sign × Expr V N M .product)) :
    ofTerms s p (more ++ [(t, q)]) = .add (ofTerms s p more) t q := by
  simp [ofTerms]

theorem SpelledWithin.append_factors {p : ParsedExpr .product} {ls' : List Leaf}
    {more : List (Scale × ParsedExpr .operand)} (hp : p.SpelledWithin levels ls)
    (hmore : ListSpelledBy (FactorSpelledWithin levels) more ls') :
    SpelledWithin levels (more.foldl (fun p (o, b) => .scale p o b) p) (ls ++ ls') := by
  -- The operands are taken in from the left, so the product that has been read so far grows.
  induction hmore generalizing p ls with
  | nil => simpa using hp
  | cons hb _ ih =>
    obtain ⟨i, ls₁, rfl, hb, hnb⟩ := hb
    simpa using ih ⟨.scale _ i hp.1 hb, by simpa only [nesting] using Nat.max_le.2 ⟨hp.2, hnb⟩⟩

theorem SpelledWithin.append_terms {e : ParsedExpr .sum} {ls' : List Leaf}
    {more : List (Sign × ParsedExpr .product)} (he : e.SpelledWithin (levels + 1) ls)
    (hmore : ListSpelledBy (TermSpelledWithin levels) more ls') :
    SpelledWithin (levels + 1) (more.foldl (fun e (s, q) => .add e s q) e) (ls ++ ls') := by
  induction hmore generalizing e ls with
  | nil => simpa using he
  | cons hq _ ih =>
    obtain ⟨i, ls₁, rfl, hq, hnq⟩ := hq
    simpa using ih ⟨.add _ i he.1 hq, by
      simpa only [nesting] using Nat.max_le.2 ⟨he.2, Nat.succ_le_succ hnq⟩⟩

/-- A product is spelled by its first operand and then by the others. -/
theorem SpelledWithin.exists_factors {ls : List Leaf} : {p : ParsedExpr .product} → p.SpelledWithin levels ls →
    ∃ a more ls₁ ls₂, p = ofFactors a more ∧ ls = ls₁ ++ ls₂ ∧ a.SpelledWithin levels ls₁ ∧
      ListSpelledBy (FactorSpelledWithin levels) more ls₂
  | .factor a, ⟨.factor ha, hn⟩ => ⟨a, [], ls, [], rfl, by simp, ⟨ha, hn⟩, .nil⟩
  | .scale p o b, ⟨.scale _ i hp hb, hn⟩ => by
    obtain ⟨hnp, hnb⟩ := Nat.max_le.1 hn
    obtain ⟨a, more, ls₁, ls₂, rfl, rfl, ha, hmore⟩ := SpelledWithin.exists_factors ⟨hp, hnp⟩
    -- The last operand is the outermost one in the tree.
    refine ⟨a, more ++ [(o, b)], ls₁, _, (ofFactors_concat a b o more).symm, List.append_assoc .., ha, ?_⟩
    exact hmore.concat ⟨i, _, rfl, hb, hnb⟩

/-- A sum is spelled by its first product, with or without a sign, and then by the others. -/
theorem SpelledWithin.exists_terms {ls : List Leaf} :
    {e : ParsedExpr .sum} → e.SpelledWithin (levels + 1) ls →
    ∃ s p more ls₁ ls₂, e = ofTerms s p more ∧ ls = ls₁ ++ ls₂ ∧
      (TermSpelledWithin levels (s, p) ls₁ ∨ s = .plus ∧ p.SpelledWithin levels ls₁) ∧
      ListSpelledBy (TermSpelledWithin levels) more ls₂
  | .signed .plus p, ⟨.unsigned hp, hn⟩ =>
    ⟨.plus, p, [], ls, [], rfl, by simp, .inr ⟨rfl, hp, Nat.le_of_succ_le_succ hn⟩, .nil⟩
  | .signed s p, ⟨.signed _ i hp, hn⟩ =>
    ⟨s, p, [], _, [], rfl, by simp, .inl ⟨i, _, rfl, hp, Nat.le_of_succ_le_succ hn⟩, .nil⟩
  | .add e t q, ⟨.add _ i he hq, hn⟩ => by
    obtain ⟨hne, hnq⟩ := Nat.max_le.1 hn
    obtain ⟨s, p, more, ls₁, ls₂, rfl, rfl, hp, hmore⟩ := SpelledWithin.exists_terms ⟨he, hne⟩
    refine ⟨s, p, more ++ [(t, q)], ls₁, _, (ofTerms_concat s t p q more).symm, List.append_assoc .., hp, ?_⟩
    exact hmore.concat ⟨i, _, rfl, hq, Nat.le_of_succ_le_succ hnq⟩

theorem SpelledBy.head_ne_sign {p : ParsedExpr .product} (hp : p.SpelledBy ls) :
    ∃ t i ls', ls = (t, i) :: ls' ∧ ∀ s, t ≠ .sign s := by
  obtain ⟨a, more, ls₁, ls₂, rfl, rfl, ⟨ha, -⟩, -⟩ := SpelledWithin.exists_factors ⟨hp, Nat.le_refl _⟩
  cases ha <;> exact ⟨_, _, _, rfl, by simp⟩

theorem SpelledBy.head_ne_string {e : ParsedExpr .sum} (he : e.SpelledBy ls) :
    ∃ t i ls', ls = (t, i) :: ls' ∧ t ≠ .string := by
  obtain ⟨s, p, more, ls₁, ls₂, rfl, rfl, hp, -⟩ :=
    SpelledWithin.exists_terms (show e.SpelledWithin (e.nesting + 1) ls from ⟨he, Nat.le_succ _⟩)
  rcases hp with ⟨i, ls, rfl, -⟩ | ⟨-, hp, -⟩
  · exact ⟨_, _, _, rfl, by simp⟩
  · obtain ⟨a, more, ls₁, ls₂, rfl, rfl, ⟨ha, -⟩, -⟩ := SpelledWithin.exists_factors ⟨hp, Nat.le_refl _⟩
    cases ha <;> exact ⟨_, _, _, rfl, by simp⟩

theorem nesting_pos : (e : Expr V N M .sum) → 0 < e.nesting
  | .signed _ _ => Nat.succ_pos _
  | .add e _ _ => Nat.lt_of_lt_of_le e.nesting_pos (Nat.le_max_left _ _)

end Expr

namespace Grammar

open LineBasic.Parser

variable {nested : Parser (ParsedExpr .sum)} {levels : Nat} {c c' : Cursor}

theorem closed_eq_ok_iff (hnested : Parses nested (Expr.SpelledWithin levels) Cursor.EndsSum) {α : Type}
    {f : ParsedExpr .sum → α} {a : α} :
    (do let e ← nested; let _ ← expect .rparen; return f e : Parser α) c = .ok (a, c') ↔
      ∃ e ls j, c.Reads (ls ++ [(.rparen, j)]) c' ∧ e.SpelledWithin levels ls ∧ f e = a := by
  simp only [bind_eq_ok_iff, expect_eq_ok_iff, pure_eq_ok_iff]
  constructor
  · rintro ⟨e, c₁, he, j, c₂, hj, rfl, rfl⟩
    obtain ⟨ls, hreads, he⟩ := hnested.sound he
    exact ⟨e, ls, j, hreads.append hj, he, rfl⟩
  · rintro ⟨e, ls, j, hreads, he, rfl⟩
    obtain ⟨c₁, hreads, hj⟩ := Cursor.reads_append_iff.1 hreads
    exact ⟨e, c₁, hnested.complete hreads he hj.endsSum, j, c', hj, rfl, rfl⟩

theorem parses_arguments (hnested : Parses nested (Expr.SpelledWithin levels) Cursor.EndsSum) (mark : TokenId)
    (f : Builtin) :
    Parses (arguments nested mark f)
      (fun a ls => a.SpelledWithin levels ((.builtin f, mark) :: ls)) fun _ => True where
  sound := by
    intro c c' a h
    cases f <;> obtain ⟨i, c₁, hi, h⟩ := bind_eq_ok_iff.1 h <;> rw [expect_eq_ok_iff] at hi
    case abs =>
      obtain ⟨e, ls, j, hreads, ⟨he, hn⟩, rfl⟩ := (closed_eq_ok_iff hnested).1 h
      exact ⟨_, hi.cons hreads, .abs mark i j he, hn⟩
    case rnd =>
      obtain ⟨e, ls, j, hreads, ⟨he, hn⟩, rfl⟩ := (closed_eq_ok_iff hnested).1 h
      exact ⟨_, hi.cons hreads, .rnd mark i j he, hn⟩
    case mod =>
      obtain ⟨e₁, c₂, he₁, h⟩ := bind_eq_ok_iff.1 h
      obtain ⟨j, c₃, hj, h⟩ := bind_eq_ok_iff.1 h
      rw [expect_eq_ok_iff] at hj
      obtain ⟨ls₁, hreads₁, he₁, hn₁⟩ := hnested.sound he₁
      obtain ⟨e₂, ls₂, k, hreads₂, ⟨he₂, hn₂⟩, rfl⟩ := (closed_eq_ok_iff hnested).1 h
      -- The comma stands between the arguments, and each of them may be nested as deeply as is allowed.
      refine ⟨_, (hi.cons hreads₁).append (hj.cons hreads₂), ?_, Nat.max_le.2 ⟨hn₁, hn₂⟩⟩
      simpa using Expr.SpelledBy.mod mark i j k he₁ he₂
  complete := by
    rintro c c' a ls hreads ⟨hspelled, hn⟩ -
    cases hspelled with
    | abs _ i j he =>
      obtain ⟨c₁, hi, hreads⟩ := hreads.uncons
      rw [arguments, expect_bind_of_reads hi]
      exact (closed_eq_ok_iff hnested).2 ⟨_, _, j, hreads, ⟨he, hn⟩, rfl⟩
    | rnd _ i j he =>
      obtain ⟨c₁, hi, hreads⟩ := hreads.uncons
      rw [arguments, expect_bind_of_reads hi]
      exact (closed_eq_ok_iff hnested).2 ⟨_, _, j, hreads, ⟨he, hn⟩, rfl⟩
    | @mod e₁ e₂ ls₁ ls₂ _ i j k he₁ he₂ =>
      obtain ⟨hn₁, hn₂⟩ := Nat.max_le.1 hn
      replace hreads : c.Reads ((.lparen, i) :: (ls₁ ++ (.comma, j) :: (ls₂ ++ [(.rparen, k)]))) c' := by
        simpa using hreads
      obtain ⟨c₁, hi, hreads⟩ := hreads.uncons
      obtain ⟨c₂, hreads₁, hreads⟩ := Cursor.reads_append_iff.1 hreads
      obtain ⟨c₃, hj, hreads₂⟩ := hreads.uncons
      rw [arguments, expect_bind_of_reads hi,
        bind_eq_of_eq_ok (hnested.complete hreads₁ ⟨he₁, hn₁⟩ hreads.endsSum), expect_bind_of_reads hj]
      exact (closed_eq_ok_iff hnested).2 ⟨e₂, ls₂, k, hreads₂, ⟨he₂, hn₂⟩, rfl⟩

theorem parses_operand (hnested : Parses nested (Expr.SpelledWithin levels) Cursor.EndsSum) :
    Parses (operand nested) (Expr.SpelledWithin levels) fun _ => True where
  sound := by
    intro c c' a h
    obtain ⟨t, ts, hts, h⟩ := peek_bind_eq_ok_iff.1 h
    split at h
    · obtain ⟨v, c₁, hv, h⟩ := bind_eq_ok_iff.1 h
      obtain ⟨rfl, rfl⟩ := pure_eq_ok_iff.1 h
      exact ⟨_, (advance_eq_ok_iff hts).1 hv, .var v, Nat.zero_le _⟩
    · obtain ⟨n, c₁, hn, h⟩ := bind_eq_ok_iff.1 h
      obtain ⟨rfl, rfl⟩ := pure_eq_ok_iff.1 h
      exact ⟨_, (advance_eq_ok_iff hts).1 hn, .number n, Nat.zero_le _⟩
    · obtain ⟨i, c₁, hi, h⟩ := bind_eq_ok_iff.1 h
      obtain ⟨e, ls, j, hreads, ⟨he, hn⟩, rfl⟩ := (closed_eq_ok_iff hnested).1 h
      exact ⟨_, ((advance_eq_ok_iff hts).1 hi).cons hreads, .group i j he, hn⟩
    · obtain ⟨mark, c₁, hmark, h⟩ := bind_eq_ok_iff.1 h
      obtain ⟨ls, hreads, ha⟩ := (parses_arguments hnested mark _).sound h
      exact ⟨_, ((advance_eq_ok_iff hts).1 hmark).cons hreads, ha⟩
    · exact absurd h complain_ne_ok
  complete := by
    rintro c c' a ls hreads ⟨hspelled, hn⟩ -
    have call : ∀ {f : Builtin} {mark : TokenId} {ls' : List Leaf}, c.Reads ((.builtin f, mark) :: ls') c' →
        a.SpelledWithin levels ((.builtin f, mark) :: ls') → operand nested c = .ok (a, c') := by
      intro f mark ls' hreads ha
      obtain ⟨c₁, hmark, hrest⟩ := hreads.uncons
      simp only [operand, peek_bind_of_reads hreads, advance_bind_of_reads hmark]
      exact (parses_arguments hnested mark f).complete hrest ha trivial
    -- The first leaf tells the rules apart.
    cases hspelled with
    | var v =>
      simp only [operand, peek_bind_of_reads hreads, advance_bind_of_reads hreads]
      rfl
    | number n =>
      simp only [operand, peek_bind_of_reads hreads, advance_bind_of_reads hreads]
      rfl
    | group i j he =>
      obtain ⟨c₁, hi, hrest⟩ := hreads.uncons
      simp only [operand, peek_bind_of_reads hreads, advance_bind_of_reads hi]
      exact (closed_eq_ok_iff hnested).2 ⟨_, _, j, hrest, ⟨he, hn⟩, rfl⟩
    | abs mark i j he => exact call hreads ⟨.abs mark i j he, hn⟩
    | rnd mark i j he => exact call hreads ⟨.rnd mark i j he, hn⟩
    | mod mark i j k he₁ he₂ => exact call hreads ⟨.mod mark i j k he₁ he₂, hn⟩

theorem tries_nextFactor (hnested : Parses nested (Expr.SpelledWithin levels) Cursor.EndsSum) :
    Tries (nextFactor nested) (FactorSpelledWithin levels) (fun _ => True) Cursor.EndsProduct := by
  refine (parses_operand hnested).behind _ Prod.mk id (fun h => ⟨_, _, rfl, h⟩) id ?_ ?_ ?_
  · intro o i c c' h
    simp only [nextFactor, peek_bind_of_reads h, advance_bind_of_reads h]
  · rintro c ⟨t, ts, hts, ht⟩
    refine peek_bind_eq_ok_iff.2 ⟨t, ts, hts, ?_⟩
    split
    · exact absurd rfl (ht _)
    · rfl
  · rintro c ⟨r, c'⟩ hc h
    obtain ⟨t, ts, hts, -⟩ := peek_bind_eq_ok_iff.1 h
    simp [hc] at hts

theorem parses_product (hnested : Parses nested (Expr.SpelledWithin levels) Cursor.EndsSum) :
    Parses (product nested) (Expr.SpelledWithin levels) Cursor.EndsProduct := by
  have hmany := (tries_nextFactor hnested).many (fun _ => trivial) (fun _ _ => trivial)
  constructor
  case sound =>
    intro c c' p h
    obtain ⟨a, c₁, ha, h⟩ := bind_eq_ok_iff.1 h
    obtain ⟨more, c₂, hmore, h⟩ := bind_eq_ok_iff.1 h
    obtain ⟨rfl, rfl⟩ := pure_eq_ok_iff.1 h
    obtain ⟨ls₁, hreads₁, ha, hn⟩ := (parses_operand hnested).sound ha
    obtain ⟨ls₂, hreads₂, hmore⟩ := hmany.sound hmore
    exact ⟨_, hreads₁.append hreads₂, Expr.SpelledWithin.append_factors ⟨.factor ha, hn⟩ hmore⟩
  case complete =>
    intro c c' p ls hreads hp hend
    obtain ⟨a, more, ls₁, ls₂, rfl, rfl, ha, hmore⟩ := hp.exists_factors
    obtain ⟨c₁, hreads₁, hreads₂⟩ := Cursor.reads_append_iff.1 hreads
    rw [product, bind_eq_of_eq_ok ((parses_operand hnested).complete hreads₁ ha trivial),
      bind_eq_of_eq_ok (hmany.complete hreads₂ hmore hend)]
    rfl

theorem tries_nextTerm (hnested : Parses nested (Expr.SpelledWithin levels) Cursor.EndsSum) :
    Tries (nextTerm nested) (TermSpelledWithin levels) Cursor.EndsProduct Cursor.EndsSum := by
  refine (parses_product hnested).behind _ Prod.mk id (fun h => ⟨_, _, rfl, h⟩) ?_ ?_ ?_ ?_
  · intro c hc
    exact hc.mono fun t ht => ht.1
  · intro s i c c' h
    simp only [nextTerm, peek_bind_of_reads h, advance_bind_of_reads h]
  · rintro c ⟨t, ts, hts, ht⟩
    refine peek_bind_eq_ok_iff.2 ⟨t, ts, hts, ?_⟩
    split
    · exact absurd rfl (ht _)
    · rfl
  · rintro c ⟨r, c'⟩ hc h
    obtain ⟨t, ts, hts, -⟩ := peek_bind_eq_ok_iff.1 h
    simp [hc] at hts

/-- What is read for the sign of a sum, which may be nothing. -/
theorem leadingSign_sound {s : Sign} (h : leadingSign c = .ok (s, c')) :
    ∃ front, c.Reads front c' ∧ ∀ {p : ParsedExpr .product} {ls : List Leaf}, p.SpelledBy ls →
      (Expr.signed s p).SpelledBy (front ++ ls) := by
  obtain ⟨t, ts, hts, hs⟩ := peek_bind_eq_ok_iff.1 h
  split at hs
  · obtain ⟨i, c₁, hi, hs⟩ := bind_eq_ok_iff.1 hs
    obtain ⟨rfl, rfl⟩ := pure_eq_ok_iff.1 hs
    exact ⟨_, (advance_eq_ok_iff hts).1 hi, .signed _ i⟩
  · obtain ⟨rfl, rfl⟩ := pure_eq_ok_iff.1 hs
    exact ⟨[], .done c, .unsigned⟩

/-- Sums. Since no product begins with a sign, a sign in front belongs to the sum. -/
theorem parses_sum (hnested : Parses nested (Expr.SpelledWithin levels) Cursor.EndsSum) :
    Parses (sum nested) (Expr.SpelledWithin (levels + 1)) Cursor.EndsSum := by
  have hproduct := parses_product hnested
  have hnext : ∀ {c c' : Cursor} {t : Sign × ParsedExpr .product} {ls : List Leaf}, c.Reads ls c' →
      TermSpelledWithin levels t ls → c.EndsProduct := by
    rintro c c' ⟨s, p⟩ _ hreads ⟨i, ls, rfl, -⟩
    exact hreads.sees (by simp [Tag.EndsProduct])
  have hmany := (tries_nextTerm hnested).many Cursor.EndsSum.endsProduct hnext
  constructor
  case sound =>
    intro c c' e h
    obtain ⟨s, c₁, hs, h⟩ := bind_eq_ok_iff.1 h
    obtain ⟨p, c₂, hp, h⟩ := bind_eq_ok_iff.1 h
    obtain ⟨more, c₃, hmore, h⟩ := bind_eq_ok_iff.1 h
    obtain ⟨rfl, rfl⟩ := pure_eq_ok_iff.1 h
    obtain ⟨ls₁, hreads₁, hspelled, hn⟩ := hproduct.sound hp
    obtain ⟨ls₂, hreads₂, hmore⟩ := hmany.sound hmore
    obtain ⟨front, hreads, hfront⟩ := leadingSign_sound hs
    exact ⟨_, (hreads.append hreads₁).append hreads₂,
      Expr.SpelledWithin.append_terms ⟨hfront hspelled, Nat.succ_le_succ hn⟩ hmore⟩
  case complete =>
    intro c c' e ls hreads he hend
    obtain ⟨s, p, more, ls₁, ls₂, rfl, rfl, hp, hmore⟩ := he.exists_terms
    obtain ⟨c₂, hreads₁, hreads₂⟩ := Cursor.reads_append_iff.1 hreads
    have hends := follow_of_listSpelledBy hmore Cursor.EndsSum.endsProduct hnext hreads₂ hend
    -- A sign that is there is read, and where none is spelled the first product does not look like one.
    have hfirst : ∃ c₁ ls, c₁.Reads ls c₂ ∧ p.SpelledWithin levels ls ∧ leadingSign c = .ok (s, c₁) := by
      rcases hp with ⟨i, ls, rfl, hp⟩ | ⟨rfl, hp⟩
      · obtain ⟨c₁, hi, hrest⟩ := hreads₁.uncons
        refine ⟨c₁, ls, hrest, hp, ?_⟩
        simp only [leadingSign, peek_bind_of_reads hreads₁, advance_bind_of_reads hi]
        rfl
      · obtain ⟨t, i, ls, rfl, ht⟩ := hp.1.head_ne_sign
        refine ⟨c, _, hreads₁, hp, ?_⟩
        simp only [leadingSign, peek_bind_of_reads hreads₁]
        rfl
    obtain ⟨c₁, ls, hrest, hp, hsign⟩ := hfirst
    rw [sum, bind_eq_of_eq_ok hsign, bind_eq_of_eq_ok (hproduct.complete hrest hp hends),
      bind_eq_of_eq_ok (hmany.complete hreads₂ hmore hend)]
    rfl

/-- Expressions. With no level left, none is spelled and none is found. -/
theorem parses_expression (levels : Nat) :
    Parses (expression levels) (Expr.SpelledWithin levels) Cursor.EndsSum := by
  induction levels with
  | zero =>
    constructor
    case sound =>
      intro c c' e h
      exact absurd h complain_ne_ok
    case complete =>
      rintro c c' e ls - ⟨-, hn⟩ -
      exact absurd hn (Nat.not_le_of_lt e.nesting_pos)
  | succ levels ih => exact parses_sum ih

end Grammar

end LineBasic

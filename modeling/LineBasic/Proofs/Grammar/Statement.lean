import LineBasic.Proofs.Grammar.Expression

/-!
# Parsing statements

The parser of statements succeeds exactly on the leaves that spell its result within the levels of nesting that
it is given, provided that the line or the text ends behind them.

## Main results

* `Grammar.tries_statement`: statements.
* `Grammar.statement_eq_none_iff`: where there is no statement.
-/

namespace LineBasic

/-- The leaves spell an item that keeps to some levels of nesting. -/
def Item.SpelledWithin (levels : Nat) (item : ParsedItem) (ls : List Leaf) : Prop :=
  item.SpelledBy ls ∧ item.nesting ≤ levels

/-- The leaves spell a statement that keeps to some levels of nesting. -/
def Stmt.SpelledWithin (levels : Nat) (s : ParsedStmt) (ls : List Leaf) : Prop :=
  s.SpelledBy ls ∧ s.nesting ≤ levels

/-- The line or the text ends here. -/
def Cursor.EndsStatement (c : Cursor) : Prop := c.Sees fun t => t = .eol ∨ t = .eof

theorem Cursor.EndsStatement.endsSum {c : Cursor} (h : c.EndsStatement) : c.EndsSum :=
  h.mono fun t ht => by rcases ht with rfl | rfl <;> simp [Tag.EndsSum, Tag.EndsProduct]

theorem Cursor.EndsStatement.sees_ne_comma {c : Cursor} (h : c.EndsStatement) : c.Sees (· ≠ .comma) :=
  h.mono fun t ht => by rcases ht with rfl | rfl <;> simp

section Lists

variable {α : Type} {spelled : α → List Leaf → Prop} {p : α → Prop}

theorem behind_and_iff {t : Tag} {a : α} {ls : List Leaf} :
    Behind t (fun a ls => spelled a ls ∧ p a) a ls ↔ Behind t spelled a ls ∧ p a := by
  simp only [Behind]
  constructor
  · rintro ⟨i, ls', rfl, ha, hp⟩
    exact ⟨⟨i, ls', rfl, ha⟩, hp⟩
  · rintro ⟨⟨i, ls', rfl, ha⟩, hp⟩
    exact ⟨i, ls', rfl, ha, hp⟩

theorem listSpelledBy_and_iff {as : List α} {ls : List Leaf} :
    ListSpelledBy (fun a ls => spelled a ls ∧ p a) as ls ↔ ListSpelledBy spelled as ls ∧ ∀ a ∈ as, p a := by
  constructor
  · intro h
    induction h with
    | nil => exact ⟨.nil, by simp⟩
    | cons ha _ ih => exact ⟨.cons ha.1 ih.1, List.forall_mem_cons.2 ⟨ha.2, ih.2⟩⟩
  · rintro ⟨h, hp⟩
    induction h with
    | nil => exact .nil
    | cons ha _ ih =>
      obtain ⟨hpa, hp⟩ := List.forall_mem_cons.1 hp
      exact .cons ⟨ha, hpa⟩ (ih hp)

end Lists

theorem moreItems_iff {levels : Nat} {more : List ParsedItem} {ls : List Leaf} :
    ListSpelledBy (Behind .comma (Item.SpelledWithin levels)) more ls ↔
      ListSpelledBy (Behind .comma Item.SpelledBy) more ls ∧ ∀ item ∈ more, item.nesting ≤ levels := by
  have hbehind : Behind .comma (Item.SpelledWithin levels) =
      fun item ls => Behind .comma Item.SpelledBy item ls ∧ item.nesting ≤ levels := by
    funext item ls
    exact propext behind_and_iff
  rw [hbehind, listSpelledBy_and_iff]

theorem Stmt.nesting_print_le_iff {V N S M : Type} {levels : Nat} {mark : M} {item : Item V N S M}
    {more : List (Item V N S M)} :
    (Stmt.print mark item more).nesting ≤ levels ↔
      item.nesting ≤ levels ∧ ∀ item ∈ more, item.nesting ≤ levels := by
  simp only [Stmt.nesting, List.map_cons, List.foldr_cons, Nat.max_le, and_congr_right_iff]
  intro _
  induction more with
  | nil => simp
  | cons item more ih => simp only [List.map_cons, List.foldr_cons, Nat.max_le, ih, List.forall_mem_cons]

namespace Grammar

open LineBasic.Parser

variable {value : Parser (ParsedExpr .sum)} {levels : Nat} {c c' : Cursor}

theorem parses_item (hvalue : Parses value (Expr.SpelledWithin levels) Cursor.EndsSum) :
    Parses (item value) (Item.SpelledWithin levels) Cursor.EndsSum where
  sound := by
    intro c c' i h
    obtain ⟨r, c₁, hr, h⟩ := bind_eq_ok_iff.1 h
    cases r with
    | some s =>
      obtain ⟨rfl, rfl⟩ := pure_eq_ok_iff.1 h
      exact ⟨_, eat_eq_some_iff.1 hr, .text s, Nat.zero_le _⟩
    | none =>
      obtain ⟨rfl, -⟩ := eat_eq_none_iff.1 hr
      obtain ⟨e, c₂, he, h⟩ := bind_eq_ok_iff.1 h
      obtain ⟨rfl, rfl⟩ := pure_eq_ok_iff.1 h
      obtain ⟨ls, hreads, he, hn⟩ := hvalue.sound he
      exact ⟨ls, hreads, .value he, hn⟩
  complete := by
    rintro c c' i ls hreads ⟨hspelled, hn⟩ hend
    cases hspelled with
    | text s =>
      rw [item, bind_eq_of_eq_ok (eat_eq_some_iff.2 hreads)]
      rfl
    | value he =>
      -- No expression begins with a string, so the parser goes on to the expression.
      have hnone : eat .string c = .ok (none, c) := by
        obtain ⟨t, i, ls, rfl, ht⟩ := he.head_ne_string
        exact eat_eq_none_iff.2 ⟨rfl, hreads.sees ht⟩
      simp only [item, bind_eq_of_eq_ok hnone, bind_eq_of_eq_ok (hvalue.complete hreads ⟨he, hn⟩ hend)]
      rfl

theorem tries_afterComma {α : Type} {p : Parser α} {spelled : α → List Leaf → Prop} {follow : Cursor → Prop}
    (hp : Parses p spelled follow) :
    Tries (afterComma p) (Behind .comma spelled) follow Cursor.EndsStatement := by
  refine hp.behind (fun _ : Unit => .comma) (fun _ a => a) id (fun h => ⟨(), _, rfl, h⟩)
    (fun h => h.sees_ne_comma.mono fun _ ht _ => ht) ?_ ?_ ?_
  · intro _ i c c' h
    rw [afterComma, bind_eq_of_eq_ok (eat_eq_some_iff.2 h)]
  · intro c h
    rw [afterComma, bind_eq_of_eq_ok (eat_eq_none_iff.2 ⟨rfl, h.mono fun _ ht => ht ()⟩)]
    rfl
  · rintro c ⟨r, c'⟩ hc h
    obtain ⟨r', c₁, hr, -⟩ := bind_eq_ok_iff.1 h
    obtain ⟨t, ts, hts, -⟩ := peek_bind_eq_ok_iff.1 hr
    simp [hc] at hts

section Kinds

variable {s : ParsedStmt} {ts : List Tag} {mark : TokenId} {ls ls' : List Leaf}

theorem printStatement_sound (hvalue : Parses value (Expr.SpelledWithin levels) Cursor.EndsSum)
    (hts : c.rest = .keyword .print :: ts) (h : printStatement value c = .ok (s, c')) :
    ∃ ls, c.Reads ls c' ∧ s.SpelledWithin levels ls := by
  obtain ⟨mark, c₁, hmark, h⟩ := bind_eq_ok_iff.1 h
  obtain ⟨first, c₂, hfirst, h⟩ := bind_eq_ok_iff.1 h
  obtain ⟨more, c₃, hmore, h⟩ := bind_eq_ok_iff.1 h
  obtain ⟨rfl, rfl⟩ := pure_eq_ok_iff.1 h
  obtain ⟨ls₁, hreads₁, hitem, hn⟩ := (parses_item hvalue).sound hfirst
  obtain ⟨ls₂, hreads₂, hmore⟩ := (manyUpTo_repeats hmore).reads (tries_afterComma (parses_item hvalue))
  obtain ⟨hmore, hns⟩ := moreItems_iff.1 hmore
  exact ⟨_, (((advance_eq_ok_iff hts).1 hmark).cons hreads₁).append hreads₂, .print mark hitem hmore,
    Stmt.nesting_print_le_iff.2 ⟨hn, hns⟩⟩

theorem printStatement_complete (hvalue : Parses value (Expr.SpelledWithin levels) Cursor.EndsSum)
    {first : ParsedItem} {more : List ParsedItem}
    (hreads : c.Reads ((.keyword .print, mark) :: ls ++ ls') c') (hitem : first.SpelledWithin levels ls)
    (hmore : ListSpelledBy (Behind .comma (Item.SpelledWithin levels)) more ls') (hend : c'.EndsStatement) :
    printStatement value c = .ok (.print mark first more, c') := by
  have hnext : ∀ {c c' : Cursor} {i : ParsedItem} {ls : List Leaf}, c.Reads ls c' →
      Behind .comma (Item.SpelledWithin levels) i ls → c.EndsSum := by
    rintro c c' i _ hreads ⟨j, ls, rfl, -⟩
    exact hreads.endsSum
  have hmany := (tries_afterComma (parses_item hvalue)).many Cursor.EndsStatement.endsSum hnext
  obtain ⟨c₁, hmark, hreads⟩ := hreads.uncons
  obtain ⟨c₂, hreads₁, hreads₂⟩ := Cursor.reads_append_iff.1 hreads
  have hends := follow_of_listSpelledBy hmore Cursor.EndsStatement.endsSum hnext hreads₂ hend
  rw [printStatement, advance_bind_of_reads hmark,
    bind_eq_of_eq_ok ((parses_item hvalue).complete hreads₁ hitem hends),
    bind_eq_of_eq_ok (hmany.complete hreads₂ hmore hend)]
  rfl

theorem parses_variable : Parses (expect .var) VariableSpelledBy fun _ => True where
  sound h := ⟨_, expect_eq_ok_iff.1 h, rfl⟩
  complete := by
    rintro c c' v ls hreads rfl -
    exact expect_eq_ok_iff.2 hreads

theorem inputStatement_sound (hts : c.rest = .keyword .input :: ts) (h : inputStatement c = .ok (s, c')) :
    ∃ ls, c.Reads ls c' ∧ s.SpelledWithin levels ls := by
  obtain ⟨mark, c₁, hmark, h⟩ := bind_eq_ok_iff.1 h
  obtain ⟨first, c₂, hfirst, h⟩ := bind_eq_ok_iff.1 h
  obtain ⟨more, c₃, hmore, h⟩ := bind_eq_ok_iff.1 h
  obtain ⟨rfl, rfl⟩ := pure_eq_ok_iff.1 h
  obtain ⟨ls₁, hreads₁, hv⟩ := parses_variable.sound hfirst
  obtain ⟨ls₂, hreads₂, hmore⟩ := (manyUpTo_repeats hmore).reads (tries_afterComma parses_variable)
  exact ⟨_, (((advance_eq_ok_iff hts).1 hmark).cons hreads₁).append hreads₂, .input mark hv hmore,
    Nat.zero_le _⟩

theorem inputStatement_complete {first : TokenId} {more : List TokenId}
    (hreads : c.Reads ((.keyword .input, mark) :: ls ++ ls') c') (hfirst : VariableSpelledBy first ls)
    (hmore : ListSpelledBy (Behind .comma VariableSpelledBy) more ls') (hend : c'.EndsStatement) :
    inputStatement c = .ok (.input mark first more, c') := by
  have hmany := (tries_afterComma parses_variable).many (fun _ => trivial) (fun _ _ => trivial)
  obtain ⟨c₁, hmark, hreads⟩ := hreads.uncons
  obtain ⟨c₂, hreads₁, hreads₂⟩ := Cursor.reads_append_iff.1 hreads
  rw [inputStatement, advance_bind_of_reads hmark,
    bind_eq_of_eq_ok (parses_variable.complete hreads₁ hfirst trivial),
    bind_eq_of_eq_ok (hmany.complete hreads₂ hmore hend)]
  rfl

theorem letStatement_sound (hvalue : Parses value (Expr.SpelledWithin levels) Cursor.EndsSum)
    (hts : c.rest = .keyword .let :: ts) (h : letStatement value c = .ok (s, c')) :
    ∃ ls, c.Reads ls c' ∧ s.SpelledWithin levels ls := by
  obtain ⟨i, c₁, hi, h⟩ := bind_eq_ok_iff.1 h
  obtain ⟨v, c₂, hv, h⟩ := bind_eq_ok_iff.1 h
  obtain ⟨j, c₃, hj, h⟩ := bind_eq_ok_iff.1 h
  obtain ⟨e, c₄, he, h⟩ := bind_eq_ok_iff.1 h
  obtain ⟨rfl, rfl⟩ := pure_eq_ok_iff.1 h
  rw [expect_eq_ok_iff] at hv hj
  obtain ⟨ls, hreads, he, hn⟩ := hvalue.sound he
  exact ⟨_, ((advance_eq_ok_iff hts).1 hi).cons (hv.cons (hj.cons hreads)), .assign i j he, hn⟩

theorem letStatement_complete (hvalue : Parses value (Expr.SpelledWithin levels) Cursor.EndsSum)
    {i v j : TokenId} {e : ParsedExpr .sum}
    (hreads : c.Reads ((.keyword .let, i) :: (.var, v) :: (.comparison .eq, j) :: ls) c')
    (he : e.SpelledWithin levels ls) (hend : c'.EndsStatement) :
    letStatement value c = .ok (.assign v e, c') := by
  obtain ⟨c₁, hi, hreads⟩ := hreads.uncons
  obtain ⟨c₂, hv, hreads⟩ := hreads.uncons
  obtain ⟨c₃, hj, hreads⟩ := hreads.uncons
  rw [letStatement, advance_bind_of_reads hi, expect_bind_of_reads hv, expect_bind_of_reads hj,
    bind_eq_of_eq_ok (hvalue.complete hreads he hend.endsSum)]
  rfl

theorem relation_eq_ok_iff {r : Comparison} {i : TokenId} :
    relation c = .ok ((r, i), c') ↔ c.Reads [(.comparison r, i)] c' := by
  constructor
  · intro h
    obtain ⟨t, ts, hts, h⟩ := peek_bind_eq_ok_iff.1 h
    split at h
    · obtain ⟨j, c₁, hj, h⟩ := bind_eq_ok_iff.1 h
      obtain ⟨hr, rfl⟩ := pure_eq_ok_iff.1 h
      cases hr
      exact (advance_eq_ok_iff hts).1 hj
    · exact absurd h complain_ne_ok
  · intro h
    simp only [relation, peek_bind_of_reads h, advance_bind_of_reads h]
    rfl

variable {body : Parser (Option ParsedStmt)} {stop : Cursor → Prop}

theorem ifStatement_sound (hvalue : Parses value (Expr.SpelledWithin levels) Cursor.EndsSum)
    (hbody : Tries body (Stmt.SpelledWithin levels) Cursor.EndsStatement stop)
    (hts : c.rest = .keyword .if :: ts) (h : ifStatement value body c = .ok (s, c')) :
    ∃ ls, c.Reads ls c' ∧ s.SpelledWithin (levels + 1) ls := by
  obtain ⟨mark, c₁, hmark, h⟩ := bind_eq_ok_iff.1 h
  obtain ⟨e₁, c₂, he₁, h⟩ := bind_eq_ok_iff.1 h
  obtain ⟨⟨r, rmark⟩, c₃, hr, h⟩ := bind_eq_ok_iff.1 h
  obtain ⟨e₂, c₄, he₂, h⟩ := bind_eq_ok_iff.1 h
  obtain ⟨i, c₅, hi, h⟩ := bind_eq_ok_iff.1 h
  obtain ⟨b, c₆, hb, h⟩ := bind_eq_ok_iff.1 h
  rw [relation_eq_ok_iff] at hr
  rw [expect_eq_ok_iff] at hi
  cases b with
  | none => exact absurd h complain_ne_ok
  | some b =>
    obtain ⟨rfl, rfl⟩ := pure_eq_ok_iff.1 h
    obtain ⟨ls₁, hreads₁, he₁, hn₁⟩ := hvalue.sound he₁
    obtain ⟨ls₂, hreads₂, he₂, hn₂⟩ := hvalue.sound he₂
    obtain ⟨ls₃, hreads₃, ⟨hb, hn₃⟩, -⟩ := hbody.sound hb
    refine ⟨_, (((advance_eq_ok_iff hts).1 hmark).cons hreads₁).append
      ((hr.cons hreads₂).append (hi.cons hreads₃)), ?_, ?_⟩
    · simpa using Stmt.SpelledBy.branch mark r rmark i he₁ he₂ hb
    · exact Nat.succ_le_succ (Nat.max_le.2 ⟨Nat.max_le.2 ⟨hn₁, hn₂⟩, hn₃⟩)

theorem ifStatement_complete (hvalue : Parses value (Expr.SpelledWithin levels) Cursor.EndsSum)
    (hbody : Tries body (Stmt.SpelledWithin levels) Cursor.EndsStatement stop)
    {e₁ e₂ : ParsedExpr .sum} {b : ParsedStmt} {r : Comparison} {rmark i : TokenId} {ls₁ ls₂ : List Leaf}
    (hreads : c.Reads
      ((.keyword .if, mark) :: ls₁ ++ (.comparison r, rmark) :: ls₂ ++ (.keyword .then, i) :: ls) c')
    (he₁ : e₁.SpelledWithin levels ls₁) (he₂ : e₂.SpelledWithin levels ls₂)
    (hb : b.SpelledWithin levels ls) (hend : c'.EndsStatement) :
    ifStatement value body c = .ok (.branch mark e₁ r rmark e₂ b, c') := by
  obtain ⟨c₄, hreads, hreads₃⟩ := Cursor.reads_append_iff.1 hreads
  obtain ⟨c₂, hreads₁, hreads₂⟩ := Cursor.reads_append_iff.1 hreads
  obtain ⟨c₁, hmark, hreads₁⟩ := hreads₁.uncons
  obtain ⟨c₃, hr, hreads₂'⟩ := hreads₂.uncons
  obtain ⟨c₅, hi, hreads₃'⟩ := hreads₃.uncons
  rw [ifStatement, advance_bind_of_reads hmark,
    bind_eq_of_eq_ok (hvalue.complete hreads₁ he₁ hreads₂.endsSum),
    bind_eq_of_eq_ok (relation_eq_ok_iff.2 hr)]
  simp only [bind_eq_of_eq_ok (hvalue.complete hreads₂' he₂ hreads₃.endsSum), expect_bind_of_reads hi,
    bind_eq_of_eq_ok (hbody.complete hreads₃' hb hend)]
  rfl

end Kinds

/-- A parser of IF statements, which is used only where one begins. -/
structure ParsesConditional (conditional : Parser ParsedStmt) (levels : Nat) : Prop where
  sound : ∀ {c c' : Cursor} {s : ParsedStmt} {ts : List Tag}, c.rest = .keyword .if :: ts →
    conditional c = .ok (s, c') → ∃ ls, c.Reads ls c' ∧ s.SpelledWithin levels ls
  complete : ∀ {c c' : Cursor} {mark rmark : TokenId} {e₁ e₂ : ParsedExpr .sum} {r : Comparison}
    {b : ParsedStmt} {ls : List Leaf}, c.Reads ls c' →
    Stmt.SpelledWithin levels (.branch mark e₁ r rmark e₂ b) ls → c'.EndsStatement →
    conditional c = .ok (.branch mark e₁ r rmark e₂ b, c')

section Dispatch

variable {conditional : Parser ParsedStmt}

theorem statementWith_sound (hvalue : Parses value (Expr.SpelledWithin levels) Cursor.EndsSum)
    (hconditional : ParsesConditional conditional levels) {s : ParsedStmt}
    (h : statementWith value conditional c = .ok (some s, c')) :
    ∃ ls, c.Reads ls c' ∧ s.SpelledWithin levels ls := by
  obtain ⟨t, ts, hts, h⟩ := peek_bind_eq_ok_iff.1 h
  -- Behind a tag stands a parser of its own, a single word, or a word and the expression of a jump.
  have wrapped : ∀ {p : Parser ParsedStmt},
      (do return some (← p) : Parser (Option ParsedStmt)) c = .ok (some s, c') → p c = .ok (s, c') := by
    intro p h
    obtain ⟨s', c₁, hs', h⟩ := bind_eq_ok_iff.1 h
    obtain ⟨hs, rfl⟩ := pure_eq_ok_iff.1 h
    cases hs
    exact hs'
  have word : ∀ {a : Action}, t = .keyword a.keyword →
      (do return some (.action (← advance) a) : Parser (Option ParsedStmt)) c = .ok (some s, c') →
      ∃ ls, c.Reads ls c' ∧ s.SpelledWithin levels ls := by
    rintro a rfl h
    obtain ⟨mark, c₁, hmark, h⟩ := bind_eq_ok_iff.1 h
    obtain ⟨hs, rfl⟩ := pure_eq_ok_iff.1 h
    cases hs
    exact ⟨_, (advance_eq_ok_iff hts).1 hmark, .action mark a, Nat.zero_le _⟩
  have jump : ∀ {k : Keyword} {f : TokenId → ParsedExpr .sum → ParsedStmt}, t = .keyword k →
      (∀ {mark e ls}, e.SpelledWithin levels ls → (f mark e).SpelledWithin levels ((.keyword k, mark) :: ls)) →
      (do return some (f (← advance) (← value)) : Parser (Option ParsedStmt)) c = .ok (some s, c') →
      ∃ ls, c.Reads ls c' ∧ s.SpelledWithin levels ls := by
    rintro k f rfl hf h
    obtain ⟨mark, c₁, hmark, h⟩ := bind_eq_ok_iff.1 h
    obtain ⟨e, c₂, he, h⟩ := bind_eq_ok_iff.1 h
    obtain ⟨hs, rfl⟩ := pure_eq_ok_iff.1 h
    cases hs
    obtain ⟨ls, hreads, he⟩ := hvalue.sound he
    exact ⟨_, ((advance_eq_ok_iff hts).1 hmark).cons hreads, hf he⟩
  split at h
  · exact absurd (pure_eq_ok_iff.1 h).1 (by simp)
  · exact printStatement_sound hvalue hts (wrapped h)
  · exact inputStatement_sound hts (wrapped h)
  · exact letStatement_sound hvalue hts (wrapped h)
  · exact hconditional.sound hts (wrapped h)
  · exact jump (f := .goto) rfl (fun he => ⟨.goto _ he.1, he.2⟩) h
  · exact jump (f := .gosub) rfl (fun he => ⟨.gosub _ he.1, he.2⟩) h
  · exact word (a := .ret) rfl h
  · exact word (a := .clear) rfl h
  · exact word (a := .list) rfl h
  · exact word (a := .run) rfl h
  · exact word (a := .halt) rfl h
  · exact absurd h complain_ne_ok

theorem statementWith_complete (hvalue : Parses value (Expr.SpelledWithin levels) Cursor.EndsSum)
    (hconditional : ParsesConditional conditional levels) {s : ParsedStmt} {ls : List Leaf}
    (hreads : c.Reads ls c') (hs : s.SpelledWithin levels ls) (hend : c'.EndsStatement) :
    statementWith value conditional c = .ok (some s, c') := by
  have hs' := hs
  obtain ⟨hspelled, hn⟩ := hs
  cases hspelled with
  | print mark hitem hmore =>
    obtain ⟨hn, hns⟩ := Stmt.nesting_print_le_iff.1 hn
    simp only [statementWith, peek_bind_of_reads hreads,
      bind_eq_of_eq_ok (printStatement_complete hvalue hreads ⟨hitem, hn⟩ (moreItems_iff.2 ⟨hmore, hns⟩) hend)]
    rfl
  | input mark hv hmore =>
    simp only [statementWith, peek_bind_of_reads hreads,
      bind_eq_of_eq_ok (inputStatement_complete hreads hv hmore hend)]
    rfl
  | assign i j he =>
    simp only [statementWith, peek_bind_of_reads hreads,
      bind_eq_of_eq_ok (letStatement_complete hvalue hreads ⟨he, hn⟩ hend)]
    rfl
  | branch mark r rmark i he₁ he₂ hb =>
    simp only [statementWith, peek_bind_of_reads hreads,
      bind_eq_of_eq_ok (hconditional.complete hreads hs' hend)]
    rfl
  | goto mark he =>
    obtain ⟨c₁, hmark, hrest⟩ := hreads.uncons
    simp only [statementWith, peek_bind_of_reads hreads, advance_bind_of_reads hmark,
      bind_eq_of_eq_ok (hvalue.complete hrest ⟨he, hn⟩ hend.endsSum)]
    rfl
  | gosub mark he =>
    obtain ⟨c₁, hmark, hrest⟩ := hreads.uncons
    simp only [statementWith, peek_bind_of_reads hreads, advance_bind_of_reads hmark,
      bind_eq_of_eq_ok (hvalue.complete hrest ⟨he, hn⟩ hend.endsSum)]
    rfl
  | action mark a =>
    cases a <;>
      simp only [statementWith, Action.keyword, peek_bind_of_reads hreads, advance_bind_of_reads hreads] <;>
      rfl

/-- There is no statement exactly at the end of a line. -/
theorem statementWith_eq_none_iff : statementWith value conditional c = .ok (none, c') ↔
    c = c' ∧ c.Sees (· = .eol) := by
  constructor
  · intro h
    obtain ⟨t, ts, hts, h⟩ := peek_bind_eq_ok_iff.1 h
    -- Every rule but that of the line end yields a statement, whatever it has parsed before.
    have found : ∀ {s : ParsedStmt} {c₁ : Cursor}, (pure (some s) : Parser (Option ParsedStmt)) c₁ ≠ .ok (none, c') :=
      fun h => absurd (pure_eq_ok_iff.1 h).1 (by simp)
    have after : ∀ {α : Type} {p : Parser α} {f : α → Parser (Option ParsedStmt)} {c : Cursor},
        (∀ a c₁, f a c₁ ≠ .ok (none, c')) → (p >>= f) c ≠ .ok (none, c') := by
      intro α p f c hf h
      obtain ⟨a, c₁, -, h⟩ := bind_eq_ok_iff.1 h
      exact hf a c₁ h
    split at h
    · exact ⟨(pure_eq_ok_iff.1 h).2, _, ts, hts, rfl⟩
    · exact absurd h (after fun _ _ => found)
    · exact absurd h (after fun _ _ => found)
    · exact absurd h (after fun _ _ => found)
    · exact absurd h (after fun _ _ => found)
    · exact absurd h (after fun _ _ => after fun _ _ => found)
    · exact absurd h (after fun _ _ => after fun _ _ => found)
    · exact absurd h (after fun _ _ => found)
    · exact absurd h (after fun _ _ => found)
    · exact absurd h (after fun _ _ => found)
    · exact absurd h (after fun _ _ => found)
    · exact absurd h (after fun _ _ => found)
    · exact absurd h complain_ne_ok
  · rintro ⟨rfl, t, ts, hts, rfl⟩
    exact peek_bind_eq_ok_iff.2 ⟨_, ts, hts, rfl⟩

theorem tries_statementWith (hvalue : Parses value (Expr.SpelledWithin levels) Cursor.EndsSum)
    (hconditional : ParsesConditional conditional levels) :
    Tries (statementWith value conditional) (Stmt.SpelledWithin levels) Cursor.EndsStatement
      fun c => c.Sees (· = .eol) where
  sound := by
    intro c c' s h
    obtain ⟨ls, hreads, hs⟩ := statementWith_sound hvalue hconditional h
    refine ⟨ls, hreads, hs, ?_⟩
    rintro rfl
    cases hs.1
  complete hreads hs hend := statementWith_complete hvalue hconditional hreads hs hend
  nothing := by
    intro c c' h
    obtain ⟨rfl, t, ts, hts, -⟩ := statementWith_eq_none_iff.1 h
    exact ⟨rfl, by simp [hts]⟩
  stops hc := statementWith_eq_none_iff.2 ⟨rfl, hc⟩

end Dispatch

/-- Statements. With no level left there is no IF statement, since one takes a level for itself. -/
theorem tries_statement (levels : Nat) :
    Tries (statement levels) (Stmt.SpelledWithin levels) Cursor.EndsStatement fun c => c.Sees (· = .eol) := by
  induction levels with
  | zero =>
    -- The parser complains at IF before it looks any further.
    refine tries_statementWith (parses_expression 0) ?_
    constructor
    case sound =>
      intro c c' s ts _ h
      exact absurd h complain_ne_ok
    case complete =>
      rintro c c' mark rmark e₁ e₂ r b ls - ⟨-, hn⟩ -
      exact absurd hn (Nat.not_succ_le_zero _)
  | succ levels ih =>
    refine tries_statementWith (parses_expression (levels + 1)) ?_
    constructor
    case sound =>
      intro c c' s ts hts h
      exact ifStatement_sound (parses_expression levels) ih hts h
    case complete =>
      rintro c c' mark rmark e₁ e₂ r b ls hreads ⟨hspelled, hn⟩ hend
      cases hspelled with
      | branch _ _ _ i he₁ he₂ hb =>
        obtain ⟨hn', hn₃⟩ := Nat.max_le.1 (Nat.le_of_succ_le_succ hn)
        obtain ⟨hn₁, hn₂⟩ := Nat.max_le.1 hn'
        exact ifStatement_complete (parses_expression levels) ih hreads ⟨he₁, hn₁⟩ ⟨he₂, hn₂⟩ ⟨hb, hn₃⟩ hend

theorem statement_eq_none_iff : statement levels c = .ok (none, c') ↔ c = c' ∧ c.Sees (· = .eol) := by
  cases levels <;> exact statementWith_eq_none_iff

end Grammar

end LineBasic

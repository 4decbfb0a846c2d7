import LineBasic.Proofs.Grammar.Acceptance

/-!
# The end of the text

The tag for the end of the text is never read, so a parser does not run out of tags in front of one: it succeeds or
complains.

## Main definitions

* `Parser.Keeps`: a parser that finds an end of the text in front of it leaves it there.

## Main results

* `Grammar.keeps_expression`, `Grammar.keeps_statement`, `Grammar.keeps_programWithin`: the parsers of the language.
* `Grammar.parse_ne_outOfTokens`: programs with an end.
-/

namespace LineBasic

namespace Parser

variable {α β : Type}

/-- From a cursor with an end of the text in front of it, the parser does not run out of tags and leaves the end where
it is. -/
def Keeps (c : Cursor) (p : Parser α) : Prop :=
  p c ≠ .error .outOfTokens ∧ ∀ a c', p c = .ok (a, c') → .eof ∈ c'.rest

namespace Keeps

variable {p : Parser α} {c : Cursor} {t : Tag}

theorem pure (hc : .eof ∈ c.rest) (a : α) : Keeps c (Pure.pure a : Parser α) := by
  refine ⟨nofun, fun b c' h => ?_⟩
  obtain ⟨-, rfl⟩ := pure_eq_ok_iff.1 h
  exact hc

theorem complain (k : Complaint) : Keeps c (Parser.complain k : Parser α) :=
  ⟨nofun, fun _ _ h => absurd h complain_ne_ok⟩

/-- One parser behind another one, which is known to have succeeded. -/
theorem bind_of_eq_ok {f : α → Parser β} (hp : Keeps c p)
    (hf : ∀ a c', p c = .ok (a, c') → .eof ∈ c'.rest → Keeps c' (f a)) : Keeps c (p >>= f) := by
  constructor
  · intro h
    rcases bind_eq_error_iff.1 h with h | ⟨a, c', ha, h⟩
    · exact hp.1 h
    · exact (hf a c' ha (hp.2 a c' ha)).1 h
  · intro b c'' h
    obtain ⟨a, c', ha, hb⟩ := bind_eq_ok_iff.1 h
    exact (hf a c' ha (hp.2 a c' ha)).2 b c'' hb

theorem bind {f : α → Parser β} (hp : Keeps c p) (hf : ∀ a c', .eof ∈ c'.rest → Keeps c' (f a)) :
    Keeps c (p >>= f) :=
  hp.bind_of_eq_ok fun a c' _ => hf a c'

theorem peek_bind {f : Tag → Parser β} (hc : .eof ∈ c.rest) (h : ∀ t ts, c.rest = t :: ts → Keeps c (f t)) :
    Keeps c (peek >>= f) := by
  obtain ⟨t, ts, hts⟩ := List.exists_cons_of_ne_nil (List.ne_nil_of_mem hc)
  have hpeek : (peek >>= f) c = f t c := bind_eq_of_eq_ok (peek_eq_ok_iff.2 ⟨rfl, ts, hts⟩) f
  rw [Keeps, hpeek]
  exact h t ts hts

/-- A tag that is no end is read. -/
theorem advance_bind {f : TokenId → Parser β} {ts : List Tag} (hc : .eof ∈ c.rest) (hts : c.rest = t :: ts)
    (ht : t ≠ .eof) (h : ∀ i c', .eof ∈ c'.rest → Keeps c' (f i)) : Keeps c (advance >>= f) := by
  refine bind ⟨nofun, fun i c' hi => ?_⟩ h
  cases hi
  rw [hts] at hc ⊢
  exact (List.mem_cons.1 hc).resolve_left ht.symm

theorem expect_bind {f : TokenId → Parser β} (hc : .eof ∈ c.rest) (ht : t ≠ .eof)
    (h : ∀ i c', .eof ∈ c'.rest → Keeps c' (f i)) : Keeps c (expect t >>= f) := by
  refine bind (peek_bind hc fun u ts hts => ?_) h
  split
  · rename_i hu
    rw [← bind_pure advance]
    exact advance_bind hc hts (hu ▸ ht) fun i c' hc' => pure hc' i
  · exact complain _

theorem expect (hc : .eof ∈ c.rest) (ht : t ≠ .eof) : Keeps c (expect t) := by
  rw [← bind_pure (Parser.expect t)]
  exact expect_bind hc ht fun i c' hc' => pure hc' i

theorem eat (hc : .eof ∈ c.rest) (ht : t ≠ .eof) : Keeps c (eat t) := by
  refine peek_bind hc fun u ts hts => ?_
  split
  · rename_i hu
    exact advance_bind hc hts (hu ▸ ht) fun i c' hc' => pure hc' _
  · exact pure hc _

/-- A repetition comes to its end, since each step that finds something reads a tag. -/
theorem many {step : Parser (Option α)} {spelled : α → List Leaf → Prop} {follow stop : Cursor → Prop}
    (hstep : Tries step spelled follow stop) (h : ∀ c, .eof ∈ c.rest → Keeps c step) (hc : .eof ∈ c.rest) :
    Keeps c (many step) := by
  have hupTo : ∀ (n : Nat) (c : Cursor), .eof ∈ c.rest → c.rest.length ≤ n → Keeps c (manyUpTo step n) := by
    intro n
    induction n with
    | zero => exact fun c hc hn => absurd (List.length_pos_of_mem hc) (Nat.not_lt.2 hn)
    | succ n ih =>
      intro c hc hn
      refine bind_of_eq_ok (h c hc) fun r c' hr hc' => ?_
      cases r with
      | none => exact pure hc' []
      | some a =>
        obtain ⟨ls, hreads, -, hls⟩ := hstep.sound hr
        have hlength := hreads.length_rest
        have hpos := List.length_pos_iff.2 hls
        exact bind (ih c' hc' (by omega)) fun as c'' hc'' => pure hc'' (a :: as)
  exact hupTo c.rest.length c hc (Nat.le_refl _)

end Keeps

end Parser

namespace Grammar

open LineBasic.Parser

variable {levels : Nat} {c : Cursor}

section Expressions

variable {nested : Parser (ParsedExpr .sum)}

theorem keeps_arguments (h : ∀ c, .eof ∈ c.rest → Keeps c nested) (mark : TokenId) (f : Builtin)
    (hc : .eof ∈ c.rest) : Keeps c (arguments nested mark f) := by
  -- A sum, with its closing parenthesis.
  have closed : ∀ (g : ParsedExpr .sum → ParsedExpr .operand) (c : Cursor), .eof ∈ c.rest →
      Keeps c (do let e ← nested; let _ ← expect .rparen; return g e) := fun g c hc =>
    (h c hc).bind fun e c' hc' => .expect_bind hc' (by simp) fun _ c' hc' => .pure hc' _
  cases f with
  | abs => exact .expect_bind hc (by simp) fun _ => closed (.abs mark)
  | rnd => exact .expect_bind hc (by simp) fun _ => closed (.rnd mark)
  | mod =>
    exact .expect_bind hc (by simp) fun _ c' hc' => (h c' hc').bind fun e c' hc' =>
      .expect_bind hc' (by simp) fun _ => closed (.mod mark e)

theorem keeps_operand (h : ∀ c, .eof ∈ c.rest → Keeps c nested) (hc : .eof ∈ c.rest) : Keeps c (operand nested) := by
  refine .peek_bind hc fun t ts hts => ?_
  cases t with
  | var => exact .advance_bind hc hts (by simp) fun _ c' hc' => .pure hc' _
  | number => exact .advance_bind hc hts (by simp) fun _ c' hc' => .pure hc' _
  | lparen =>
    exact .advance_bind hc hts (by simp) fun _ c' hc' => (h c' hc').bind fun _ c' hc' =>
      .expect_bind hc' (by simp) fun _ c' hc' => .pure hc' _
  | builtin f => exact .advance_bind hc hts (by simp) fun mark c' hc' => keeps_arguments h mark f hc'
  | _ => exact .complain _

theorem keeps_nextFactor (h : ∀ c, .eof ∈ c.rest → Keeps c nested) (c : Cursor) (hc : .eof ∈ c.rest) :
    Keeps c (nextFactor nested) := by
  refine .peek_bind hc fun t ts hts => ?_
  cases t with
  | scale o =>
    exact .advance_bind hc hts (by simp) fun _ c' hc' => (keeps_operand h hc').bind fun _ _ hc' => .pure hc' _
  | _ => exact .pure hc _

theorem keeps_product (h : ∀ c, .eof ∈ c.rest → Keeps c nested)
    (hnested : Parses nested (Expr.SpelledWithin levels) Cursor.EndsSum) (hc : .eof ∈ c.rest) :
    Keeps c (product nested) :=
  (keeps_operand h hc).bind fun _ _ hc' =>
    (Keeps.many (tries_nextFactor hnested) (keeps_nextFactor h) hc').bind fun _ _ hc' => .pure hc' _

theorem keeps_leadingSign (hc : .eof ∈ c.rest) : Keeps c leadingSign := by
  refine .peek_bind hc fun t ts hts => ?_
  cases t with
  | sign s => exact .advance_bind hc hts (by simp) fun _ c' hc' => .pure hc' _
  | _ => exact .pure hc _

theorem keeps_nextTerm (h : ∀ c, .eof ∈ c.rest → Keeps c nested)
    (hnested : Parses nested (Expr.SpelledWithin levels) Cursor.EndsSum) (c : Cursor) (hc : .eof ∈ c.rest) :
    Keeps c (nextTerm nested) := by
  refine .peek_bind hc fun t ts hts => ?_
  cases t with
  | sign s =>
    exact .advance_bind hc hts (by simp) fun _ c' hc' =>
      (keeps_product h hnested hc').bind fun _ c' hc' => .pure hc' _
  | _ => exact .pure hc _

theorem keeps_expression (levels : Nat) (c : Cursor) (hc : .eof ∈ c.rest) : Keeps c (expression levels) := by
  induction levels generalizing c with
  | zero => exact .complain _
  | succ levels ih =>
    exact (keeps_leadingSign hc).bind fun _ c' hc' => (keeps_product ih (parses_expression levels) hc').bind
      fun _ c' hc' => (Keeps.many (tries_nextTerm (parses_expression levels))
        (keeps_nextTerm ih (parses_expression levels)) hc').bind fun _ c' hc' => .pure hc' _

end Expressions

section Statements

variable {value : Parser (ParsedExpr .sum)} {body : Parser (Option ParsedStmt)}

theorem keeps_item (h : ∀ c, .eof ∈ c.rest → Keeps c value) (c : Cursor) (hc : .eof ∈ c.rest) :
    Keeps c (item value) := by
  refine (Keeps.eat hc (by simp)).bind fun s? c' hc' => ?_
  cases s? with
  | some s => exact .pure hc' _
  | none => exact (h c' hc').bind fun _ c' hc' => .pure hc' _

theorem keeps_afterComma {α : Type} {p : Parser α} (h : ∀ c, .eof ∈ c.rest → Keeps c p) (c : Cursor)
    (hc : .eof ∈ c.rest) : Keeps c (afterComma p) := by
  refine (Keeps.eat hc (by simp)).bind fun i? c' hc' => ?_
  cases i? with
  | some i => exact (h c' hc').bind fun _ c' hc' => .pure hc' _
  | none => exact .pure hc' _

theorem keeps_variable (c : Cursor) (hc : .eof ∈ c.rest) : Keeps c (expect .var) := .expect hc (by simp)

theorem keeps_printStatement (h : ∀ c, .eof ∈ c.rest → Keeps c value)
    (hvalue : Parses value (Expr.SpelledWithin levels) Cursor.EndsSum) {ts : List Tag} (hc : .eof ∈ c.rest)
    (hts : c.rest = .keyword .print :: ts) : Keeps c (printStatement value) :=
  .advance_bind hc hts (by simp) fun _ c' hc' => (keeps_item h c' hc').bind fun _ c' hc' =>
    (Keeps.many (tries_afterComma (parses_item hvalue)) (keeps_afterComma (keeps_item h)) hc').bind
      fun _ c' hc' => .pure hc' _

theorem keeps_inputStatement {ts : List Tag} (hc : .eof ∈ c.rest) (hts : c.rest = .keyword .input :: ts) :
    Keeps c inputStatement :=
  .advance_bind hc hts (by simp) fun _ c' hc' => (keeps_variable c' hc').bind fun _ c' hc' =>
    (Keeps.many (tries_afterComma parses_variable) (keeps_afterComma keeps_variable) hc').bind
      fun _ c' hc' => .pure hc' _

theorem keeps_letStatement (h : ∀ c, .eof ∈ c.rest → Keeps c value) {ts : List Tag} (hc : .eof ∈ c.rest)
    (hts : c.rest = .keyword .let :: ts) : Keeps c (letStatement value) :=
  .advance_bind hc hts (by simp) fun _ c' hc' => (keeps_variable c' hc').bind fun _ c' hc' =>
    .expect_bind hc' (by simp) fun _ c' hc' => (h c' hc').bind fun _ c' hc' => .pure hc' _

theorem keeps_relation (hc : .eof ∈ c.rest) : Keeps c relation := by
  refine .peek_bind hc fun t ts hts => ?_
  cases t with
  | comparison r => exact .advance_bind hc hts (by simp) fun _ c' hc' => .pure hc' _
  | _ => exact .complain _

theorem keeps_ifStatement (h : ∀ c, .eof ∈ c.rest → Keeps c value) (hbody : ∀ c, .eof ∈ c.rest → Keeps c body)
    {ts : List Tag} (hc : .eof ∈ c.rest) (hts : c.rest = .keyword .if :: ts) : Keeps c (ifStatement value body) := by
  refine .advance_bind hc hts (by simp) fun _ c' hc' => (h c' hc').bind fun _ c' hc' =>
    (keeps_relation hc').bind fun _ c' hc' => (h c' hc').bind fun _ c' hc' => ?_
  refine .expect_bind hc' (by simp) fun _ c' hc' => (hbody c' hc').bind fun s? c' hc' => ?_
  cases s? with
  | some s => exact .pure hc' _
  | none => exact .complain _

theorem keeps_statementWith {conditional : Parser ParsedStmt} (h : ∀ c, .eof ∈ c.rest → Keeps c value)
    (hvalue : Parses value (Expr.SpelledWithin levels) Cursor.EndsSum)
    (hconditional : ∀ {c ts}, .eof ∈ c.rest → c.rest = .keyword .if :: ts → Keeps c conditional)
    (hc : .eof ∈ c.rest) : Keeps c (statementWith value conditional) := by
  have some_of : ∀ {p : Parser ParsedStmt}, Keeps c p → Keeps c (do return some (← p) : Parser (Option ParsedStmt)) :=
    fun hp => hp.bind fun _ c' hc' => .pure hc' _
  refine .peek_bind hc fun t ts hts => ?_
  cases t with
  | eol => exact .pure hc _
  | keyword k =>
    cases k with
    | print => exact some_of (keeps_printStatement h hvalue hc hts)
    | input => exact some_of (keeps_inputStatement hc hts)
    | «let» => exact some_of (keeps_letStatement h hc hts)
    | «if» => exact some_of (hconditional hc hts)
    | goto | gosub =>
      exact .advance_bind hc hts (by simp) fun _ c' hc' => (h c' hc').bind fun _ c' hc' => .pure hc' _
    | «return» | clear | list | run | «end» => exact .advance_bind hc hts (by simp) fun _ c' hc' => .pure hc' _
    | «then» => exact .complain _
  | _ => exact .complain _

theorem keeps_statement (levels : Nat) (c : Cursor) (hc : .eof ∈ c.rest) : Keeps c (statement levels) := by
  induction levels generalizing c with
  | zero => exact keeps_statementWith (keeps_expression 0) (parses_expression 0) (fun _ _ => .complain _) hc
  | succ levels ih =>
    exact keeps_statementWith (keeps_expression _) (parses_expression _)
      (keeps_ifStatement (keeps_expression levels) ih) hc

end Statements

theorem keeps_lineEnd (hc : .eof ∈ c.rest) : Keeps c lineEnd := by
  refine (Keeps.eat hc (by simp)).bind fun i? c' hc' => ?_
  cases i? with
  | some i => exact .pure hc' _
  | none =>
    refine .peek_bind hc' fun t ts hts => ?_
    split
    · exact .pure hc' _
    · exact .complain _

theorem keeps_nextLineWithin (levels : Nat) (c : Cursor) (hc : .eof ∈ c.rest) : Keeps c (nextLineWithin levels) := by
  refine .peek_bind hc fun t ts hts => ?_
  split
  · exact .pure hc _
  · refine .bind (.bind (.eat hc (by simp)) fun _ c' hc' => ?_) fun _ c' hc' => .pure hc' _
    exact (keeps_statement levels c' hc').bind fun _ c' hc' => (keeps_lineEnd hc').bind fun _ c' hc' => .pure hc' _

theorem keeps_programWithin (levels : Nat) (hc : .eof ∈ c.rest) : Keeps c (programWithin levels) :=
  (Keeps.many tries_nextLineWithin (keeps_nextLineWithin levels) hc).bind fun _ _ hc' => .pure hc' _

/-- Tags with an end of the text among them are a program, or something is wrong with one of them. -/
theorem parse_ne_outOfTokens {tags : List Tag} (h : .eof ∈ tags) : parse tags ≠ .error .outOfTokens := by
  intro hparse
  have hprogram : program ⟨0, tags⟩ ≠ .error .outOfTokens := (keeps_programWithin maxNesting h).1
  rw [parse] at hparse
  cases hp : program ⟨0, tags⟩ with
  | error e =>
    rw [hp] at hparse hprogram
    cases hparse
    exact hprogram rfl
  | ok r =>
    rw [hp] at hparse
    cases hparse

end Grammar

end LineBasic

import LineBasic.Proofs.Grammar.Completion

/-!
# Complaints about statements and programs

What has been read in front of a complaint begins a statement, and in the end a program. A statement that does not
begin is taken for an empty one, so the parser asks for the end of the line. At the beginning of a line that is
right, but behind THEN there has to be a statement.

## Main definitions

* `Stmt.Broken`, `Grammar.Broken`: what stands in front of a complaint about a statement, and about a program.

## Main results

* `Grammar.breaks_statement`, `Grammar.breaks_programWithin`.
-/

namespace LineBasic

/-- The last leaf is THEN. -/
def EndsInThen (ls : List Leaf) : Prop := ∃ i, ls.getLast? = some (.keyword .then, i)

theorem EndsInThen.append {ls : List Leaf} (h : EndsInThen ls) (front : List Leaf) : EndsInThen (front ++ ls) := by
  obtain ⟨i, hi⟩ := h
  exact ⟨i, by simp [List.getLast?_append, hi]⟩

/-- The leaves spell an item of PRINT. -/
def Item.Spells (ls : List Leaf) : Prop := ∃ item : ParsedItem, item.SpelledBy ls

/-- The leaves spell a statement. -/
def Stmt.Spells (ls : List Leaf) : Prop := ∃ s : ParsedStmt, s.SpelledBy ls

/-- In front of a complaint about a statement stands the beginning of one. The tag that is asked for goes on with
it, unless there is nothing where the statement should stand. -/
def Stmt.Broken (e : SyntaxError) (ls : List Leaf) : Prop :=
  Opens Stmt.Spells e ls ∨
    e.complaint = .expectToken .eol ∧ (ls = [] ∨ EndsInThen ls) ∧ Opens Stmt.Spells ⟨.expectStatement, e.token⟩ ls

/-- What is wrong with the statement behind THEN is wrong with the IF statement. -/
theorem Stmt.Broken.behind_then {e : SyntaxError} {ls front : List Leaf} (h : Stmt.Broken e ls)
    (hthen : EndsInThen front) (hfront : ∀ ls, Stmt.Spells ls → Stmt.Spells (front ++ ls)) :
    Stmt.Broken e (front ++ ls) := by
  refine h.imp (fun h => h.last front hfront) ?_
  rintro ⟨heol, hls, h⟩
  refine ⟨heol, .inr ?_, h.last front hfront⟩
  rcases hls with rfl | hls
  · rwa [List.append_nil]
  · exact hls.append front

namespace Grammar

open LineBasic.Parser

/-- The leaves spell a program, without the end of the text. -/
def Spells (ls : List Leaf) : Prop := ∃ lines, SpelledBy lines ls

/-- In front of a complaint about a program stands the beginning of one. The tag that is asked for goes on with it,
unless the last tag is THEN. -/
def Broken (e : SyntaxError) (ls : List Leaf) : Prop :=
  Opens Spells e ls ∨
    e.complaint = .expectToken .eol ∧ EndsInThen ls ∧ Opens Spells ⟨.expectStatement, e.token⟩ ls

variable {levels : Nat} {c : Cursor}

section Statements

variable {value : Parser (ParsedExpr .sum)} {body : Parser (Option ParsedStmt)} {stop : Cursor → Prop}

theorem spells_return (i : TokenId) : Stmt.Spells [(.keyword .return, i)] := ⟨_, .action i .ret⟩

theorem breaks_item (hbreaks : ∀ c, Breaks c value (Opens Level.sum.Spells)) (c : Cursor) :
    Breaks c (item value) (Opens Item.Spells) :=
  .eat_bind (.map ((hbreaks c).mono fun _ _ h => h.mono fun _ ⟨_, he⟩ => ⟨_, .value he⟩)) fun _ _ => .pure _

/-- The members of a list behind the first one, with commas in front of them. -/
theorem breaks_more {α : Type} (front : List Leaf) {p : Parser α} {within spelled : α → List Leaf → Prop}
    {follow : Cursor → Prop} (hp : Parses p within follow) (hwithin : ∀ {a ls}, within a ls → spelled a ls)
    (hbreaks : ∀ c, Breaks c p (Opens fun ls => ∃ a, spelled a ls)) {make : List α → ParsedStmt}
    (hmake : ∀ {more ls}, ListSpelledBy (Behind .comma spelled) more ls → (make more).SpelledBy (front ++ ls)) :
    Breaks c (many (afterComma p)) fun e ls => Opens Stmt.Spells e (front ++ ls) := by
  refine .many (fun ls => ∃ more ls', ls = front ++ ls' ∧ ListSpelledBy (Behind .comma spelled) more ls')
    ⟨[], [], by simp, .nil⟩ ?_ ?_
  · rintro _ c ⟨more, ls, rfl, hmore⟩
    refine .eat_bind (.pure _) fun i c => .map ((hbreaks c).mono fun _ _ h => ?_)
    refine h.behind fun ls' ⟨a, ha⟩ => ⟨make (more ++ [a]), ?_⟩
    simpa using hmake (hmore.concat ⟨i, ls', rfl, ha⟩)
  · rintro _ c c' a ⟨more, ls, rfl, hmore⟩ h -
    obtain ⟨_, hreads, ⟨i, ls', rfl, ha⟩, -⟩ := (tries_afterComma hp).sound h
    exact ⟨_, hreads, more ++ [a], _, List.append_assoc .., hmore.concat ⟨i, ls', rfl, hwithin ha⟩⟩

theorem breaks_printStatement (hvalue : Parses value (Expr.SpelledWithin levels) Cursor.EndsSum)
    (hbreaks : ∀ c, Breaks c value (Opens Level.sum.Spells)) {ts : List Tag} (hts : c.rest = .keyword .print :: ts) :
    Breaks c (printStatement value) (Opens Stmt.Spells) := by
  refine .advance_bind hts fun mark c => .bind ((breaks_item hbreaks c).mono fun _ _ h =>
    h.last [_] fun ls ⟨_, hitem⟩ => ⟨_, by simpa using Stmt.SpelledBy.print mark hitem .nil⟩) fun first c' hfirst => ?_
  obtain ⟨ls, hreads, hitem, -⟩ := (parses_item hvalue).sound hfirst
  exact ⟨ls, hreads, .map (breaks_more ((.keyword .print, mark) :: ls) (parses_item hvalue) And.left
    (breaks_item hbreaks) (.print mark hitem))⟩

theorem breaks_variable (c : Cursor) : Breaks c (expect .var) (Opens fun ls => ∃ v, VariableSpelledBy v ls) := by
  rw [← bind_pure (expect .var)]
  exact .expect_bind (.wanted (by simp) [] ⟨_, rfl⟩) fun _ _ => .pure _

theorem breaks_inputStatement {ts : List Tag} (hts : c.rest = .keyword .input :: ts) :
    Breaks c inputStatement (Opens Stmt.Spells) := by
  refine .advance_bind hts fun mark c => .bind ((breaks_variable c).mono fun _ _ h =>
    h.last [_] fun ls ⟨_, hv⟩ => ⟨_, by simpa using Stmt.SpelledBy.input mark hv .nil⟩) fun first c' hfirst => ?_
  obtain ⟨ls, hreads, hv⟩ := parses_variable.sound hfirst
  exact ⟨ls, hreads, .map (breaks_more ((.keyword .input, mark) :: ls) parses_variable id
    breaks_variable (.input mark hv))⟩

theorem breaks_letStatement (hbreaks : ∀ c, Breaks c value (Opens Level.sum.Spells)) {ts : List Tag}
    (hts : c.rest = .keyword .let :: ts) : Breaks c (letStatement value) (Opens Stmt.Spells) := by
  have hwhole : ∀ {ls} i v j, Level.sum.Spells ls →
      Stmt.Spells ([(Tag.keyword .let, i), (Tag.var, v), (Tag.comparison .eq, j)] ++ ls) :=
    fun i v j ⟨_, he⟩ => ⟨_, .assign i j he⟩
  refine .advance_bind hts fun i c => .expect_bind ?_ fun v c => .expect_bind ?_ fun j c =>
    .map ((hbreaks c).mono fun _ _ h => h.last [_, _, _] fun _ => hwhole i v j)
  · exact .wanted (by simp) [.comparison .eq, .var] (hwhole i _ _ (spells_var _))
  · exact .wanted (by simp) [.var] (hwhole i v _ (spells_var _))

/-- The second side of a condition, and what stands behind it. -/
theorem breaks_consequence (front : List Leaf) (hvalue : Parses value (Expr.SpelledWithin levels) Cursor.EndsSum)
    (hbreaks : ∀ c, Breaks c value (Opens Level.sum.Spells))
    (hbody : Tries body (Stmt.SpelledWithin levels) Cursor.EndsStatement stop)
    (hbroken : ∀ c, Breaks c body Stmt.Broken)
    (hwhole : ∀ {ls ls'} i, Level.sum.Spells ls → Stmt.Spells ls' →
      Stmt.Spells (front ++ ls ++ (Tag.keyword .then, i) :: ls')) {f : ParsedExpr .sum → ParsedStmt → ParsedStmt} :
    Breaks c (do
        let e ← value
        let _ ← expect (.keyword .then)
        match ← body with
        | some s => return f e s
        | none => complain .expectStatement : Parser ParsedStmt)
      fun e ls => Stmt.Broken e (front ++ ls) := by
  refine .bind ((hbreaks c).mono fun _ _ h => .inl (h.extend front fun ls hls n =>
    ⟨[.keyword .then, .keyword .return], hwhole n hls (spells_return _)⟩)) fun e c' he => ?_
  obtain ⟨ls, hreads, he, -⟩ := hvalue.sound he
  refine ⟨ls, hreads, .expect_bind (.inl (.wanted (by simp) [.keyword .return] ?_)) fun i c => ?_⟩
  · simpa using hwhole _ ⟨e, he⟩ (spells_return _)
  have hfront : ∀ ls', Stmt.Spells ls' → Stmt.Spells (front ++ ls ++ [(Tag.keyword .then, i)] ++ ls') :=
    fun ls' hls' => by simpa using hwhole i ⟨e, he⟩ hls'
  -- Behind THEN only a statement can come, although the complaint asks for a line end.
  have hthen : EndsInThen (front ++ ls ++ [(Tag.keyword .then, i)]) := ⟨i, by simp⟩
  refine .bind ((hbroken c).mono fun _ _ h => by simpa using h.behind_then hthen hfront) fun s? c' hs => ?_
  cases s? with
  | some s =>
    obtain ⟨ls', hreads, -, -⟩ := hbody.sound hs
    exact ⟨ls', hreads, .pure _⟩
  | none =>
    obtain ⟨rfl, -⟩ := hbody.nothing hs
    refine ⟨[], .done c, .complain (.inl ?_)⟩
    exact .unwanted rfl [.keyword .return] (by simpa using hfront _ (spells_return _))

theorem breaks_ifStatement (hvalue : Parses value (Expr.SpelledWithin levels) Cursor.EndsSum)
    (hbreaks : ∀ c, Breaks c value (Opens Level.sum.Spells))
    (hbody : Tries body (Stmt.SpelledWithin levels) Cursor.EndsStatement stop)
    (hbroken : ∀ c, Breaks c body Stmt.Broken) {ts : List Tag} (hts : c.rest = .keyword .if :: ts) :
    Breaks c (ifStatement value body) Stmt.Broken := by
  have hwhole : ∀ {ls₁ ls₂ ls} mark r i j, Level.sum.Spells ls₁ → Level.sum.Spells ls₂ → Stmt.Spells ls →
      Stmt.Spells ((Tag.keyword .if, mark) :: ls₁ ++ (Tag.comparison r, i) :: ls₂ ++ (Tag.keyword .then, j) :: ls) :=
    fun mark r i j ⟨_, he₁⟩ ⟨_, he₂⟩ ⟨_, hb⟩ => ⟨_, .branch mark r i j he₁ he₂ hb⟩
  refine .advance_bind hts fun mark c => .bind ((hbreaks c).mono fun _ _ h => .inl (h.extend [_] fun ls hls n =>
    ⟨[.comparison .eq, .var, .keyword .then, .keyword .return], ?_⟩)) fun e c' he => ?_
  · simpa using hwhole mark .eq n (n + 2) hls (spells_var _) (spells_return _)
  obtain ⟨ls, hreads, he, -⟩ := hvalue.sound he
  refine ⟨ls, hreads, .bind (.peek_bind fun t ts hts => ?_) fun ⟨r, i⟩ c'' hr => ?_⟩
  · cases t with
    | comparison r => exact .advance_bind hts fun _ _ => .pure _
    | _ =>
      refine .complain (.inl (.unwanted rfl [.comparison .eq, .var, .keyword .then, .keyword .return] ?_))
      simpa using hwhole mark .eq _ _ ⟨e, he⟩ (spells_var _) (spells_return _)
  · refine ⟨_, relation_eq_ok_iff.1 hr, ?_⟩
    refine (breaks_consequence ((Tag.keyword .if, mark) :: ls ++ [(Tag.comparison r, i)]) hvalue hbreaks hbody hbroken
      fun j hls hls' => ?_).mono fun _ _ h => by simpa using h
    simpa using hwhole mark r i j ⟨e, he⟩ hls hls'

theorem breaks_statementWith {conditional : Parser ParsedStmt}
    (hvalue : Parses value (Expr.SpelledWithin levels) Cursor.EndsSum)
    (hbreaks : ∀ c, Breaks c value (Opens Level.sum.Spells))
    (hconditional : ∀ {c ts}, c.rest = .keyword .if :: ts → Breaks c conditional Stmt.Broken) (c : Cursor) :
    Breaks c (statementWith value conditional) Stmt.Broken := by
  have plain : ∀ {p : Parser ParsedStmt}, Breaks c p (Opens Stmt.Spells) →
      Breaks c (do return some (← p) : Parser (Option ParsedStmt)) Stmt.Broken := fun hp =>
    .map (hp.mono fun _ _ => .inl)
  have nothing : Stmt.Broken ⟨.expectToken .eol, c.position⟩ [] :=
    .inr ⟨rfl, .inl rfl, .unwanted rfl [.keyword .return] (spells_return _)⟩
  refine .peek_bind fun t ts hts => ?_
  cases t with
  | eol => exact .pure _
  | keyword k =>
    cases k with
    | print => exact plain (breaks_printStatement hvalue hbreaks hts)
    | input => exact plain (breaks_inputStatement hts)
    | «let» => exact plain (breaks_letStatement hbreaks hts)
    | «if» => exact .map (hconditional hts)
    | goto =>
      exact .advance_bind hts fun mark c => .map ((hbreaks c).mono fun _ _ h =>
        .inl (h.last [_] fun _ ⟨_, he⟩ => ⟨_, .goto mark he⟩))
    | gosub =>
      exact .advance_bind hts fun mark c => .map ((hbreaks c).mono fun _ _ h =>
        .inl (h.last [_] fun _ ⟨_, he⟩ => ⟨_, .gosub mark he⟩))
    | «return» | clear | list | run | «end» => exact .advance_bind hts fun _ _ => .pure _
    | «then» => exact .complain nothing
  | _ => exact .complain nothing

theorem breaks_statement (levels : Nat) (c : Cursor) : Breaks c (statement levels) Stmt.Broken := by
  induction levels generalizing c with
  | zero =>
    refine breaks_statementWith (parses_expression 0) (breaks_expression 0) (fun _ => ?_) c
    exact .complain (.inl (.unwanted rfl [.keyword .return] (spells_return _)))
  | succ levels ih =>
    exact breaks_statementWith (parses_expression _) (breaks_expression _)
      (breaks_ifStatement (parses_expression levels) (breaks_expression levels) (tries_statement levels) ih) c

end Statements

section Programs

theorem breaks_lineEnd {broken : SyntaxError → List Leaf → Prop} (h : broken ⟨.expectToken .eol, c.position⟩ []) :
    Breaks c lineEnd broken :=
  .eat_bind (.peek_bind fun t ts hts => by
    split
    · exact .pure _
    · exact .complain h) fun _ _ => .pure _

theorem breaks_lineWithin (levels : Nat) (c : Cursor) : Breaks c (lineWithin levels) Broken := by
  have hend : ∀ {line? ls} i, LineSpelledBy line? ls → Spells (ls ++ [(Tag.eol, i)]) := fun i h => ⟨_, .line i h .nil⟩
  refine .bind (.eat _) fun number c₁ hnumber => ?_
  obtain ⟨front, hreads, hnone, hsome⟩ := number_sound hnumber
  refine ⟨front, hreads, .bind ((breaks_statement levels c₁).mono fun e ls h => ?_) fun s? c₂ hs => ?_⟩
  · have hfront : ∀ ls, Stmt.Spells ls → Spells (front ++ ls) := fun ls ⟨s, hs⟩ => ⟨_, .last (hsome hs)⟩
    rcases h with h | ⟨heol, rfl | hthen, h⟩
    · exact .inl (h.last front hfront)
    · -- Where nothing stands, the end of the line can come.
      obtain ⟨k, i⟩ := e
      obtain rfl : k = .expectToken .eol := heol
      exact .inl (.wanted (by simp) [] (by simpa using hend i hnone))
    · exact .inr ⟨heol, hthen.append front, h.last front hfront⟩
  · have hline : ∃ line? ls, c₁.Reads ls c₂ ∧ LineSpelledBy line? (front ++ ls) := by
      cases s? with
      | none =>
        obtain ⟨rfl, -⟩ := statement_eq_none_iff.1 hs
        exact ⟨none, [], .done c₁, by simpa using hnone⟩
      | some s =>
        obtain ⟨ls, hreads, ⟨hs, -⟩, -⟩ := (tries_statement levels).sound hs
        exact ⟨_, ls, hreads, hsome hs⟩
    obtain ⟨line?, ls, hreads, hline⟩ := hline
    exact ⟨ls, hreads, .map (breaks_lineEnd (.inl (.wanted (by simp) [] (by simpa using hend _ hline))))⟩

theorem breaks_nextLineWithin (levels : Nat) (c : Cursor) : Breaks c (nextLineWithin levels) Broken := by
  refine .peek_bind fun t ts hts => ?_
  split
  · exact .pure _
  · exact .map (breaks_lineWithin levels c)

theorem Broken.behind {e : SyntaxError} {ls front : List Leaf} (h : Broken e ls)
    (hfront : ∀ ls, Spells ls → Spells (front ++ ls)) : Broken e (front ++ ls) :=
  h.imp (fun h => h.last front hfront) fun ⟨heol, hthen, h⟩ => ⟨heol, hthen.append front, h.last front hfront⟩

/-- In front of a complaint about a program stands the beginning of one. -/
theorem breaks_programWithin (levels : Nat) (c : Cursor) : Breaks c (programWithin levels) Broken := by
  -- Lines in front of others have their ends.
  refine .map (.many (fun front => ∀ ls, Spells ls → Spells (front ++ ls))
    (show ∀ ls, Spells ls → Spells ([] ++ ls) from fun _ => id) ?_ ?_)
  · intro front c hfront
    exact (breaks_nextLineWithin levels c).mono fun _ _ h => h.behind hfront
  · intro front c c' line? hfront h hgoes
    obtain ⟨-, h⟩ := nextLineWithin_eq_some_iff.1 h
    obtain ⟨-, ⟨ls, i, hreads, hline⟩ | ⟨-, -, -, -, -, heof⟩⟩ := lineWithin_sound h
    · refine ⟨_, hreads, fun ls' ⟨lines, hlines⟩ => ?_⟩
      simpa using hfront _ ⟨_, .line i hline hlines⟩
    · exact absurd (nextLineWithin_eq_none_iff.2 ⟨rfl, heof⟩) (hgoes c')

end Programs

end Grammar

end LineBasic

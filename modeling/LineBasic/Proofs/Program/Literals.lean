import LineBasic.Proofs.Batch.Runs
import LineBasic.Proofs.Token.Longest

/-!
# Integer literals

An integer is written in decimal, with a minus in front if it is negative, and zeros in front of its digits change
nothing. PRINT with such a literal prints the integer again. The least number is the exception: its digits alone
denote no number that fits into sixteen bits, so they are no token of the language.

## Main definitions

* `literal`: an integer as it is written, with zeros in front of its digits.

## Main results

* `value_paddedDigits`: zeros in front change nothing.
* `words_print`: the words of a line that prints a literal.
* `Program.exists_parse_of_words`: a text is a program if its words spell one.
* `Batch.run_print_literal`: what becomes of a program that prints a literal.
-/

namespace LineBasic

/-- The digits of a number, with zeros in front. -/
def paddedDigits (zeros n : Nat) : List Char := List.replicate zeros '0' ++ Nat.toDigits 10 n

/-- An integer as it is written: a minus if it is negative, and then its digits, with zeros in front. -/
def literal (zeros : Nat) (n : Int) : List Char := (if n < 0 then ['-'] else []) ++ paddedDigits zeros n.natAbs

/-! ### Digits -/

section Digits

variable {zeros n : Nat}

theorem value_zero_cons (digits : List Char) : Decimal.value ('0' :: digits) = Decimal.value digits := rfl

theorem value_paddedDigits (zeros n : Nat) : Decimal.value (paddedDigits zeros n) = n := by
  induction zeros with
  | zero => exact Nat.ofDigitChars_ten_toDigits
  | succ zeros ih =>
    rw [paddedDigits, List.replicate_succ, List.cons_append, value_zero_cons]
    exact ih

theorem paddedDigits_ne_nil : paddedDigits zeros n ≠ [] :=
  List.append_ne_nil_of_right_ne_nil _ Nat.toDigits_ne_nil

theorem isDigit_of_mem_paddedDigits {c : Char} (hc : c ∈ paddedDigits zeros n) : c.isDigit := by
  rcases List.mem_append.1 hc with hzero | hdigit
  · rw [List.eq_of_mem_replicate hzero]
    decide
  · exact Nat.isDigit_of_mem_toDigits (by decide) (by decide) hdigit

theorem unsigned?_paddedDigits (zeros n : Nat) : Decimal.unsigned? (paddedDigits zeros n) = some n := by
  rw [Decimal.unsigned?, if_pos ⟨paddedDigits_ne_nil, List.all_eq_true.2 fun _ => isDigit_of_mem_paddedDigits⟩,
    value_paddedDigits]

end Digits

/-! ### The words of a line -/

section Words

variable {cs r digits blanks ending : List Char} {ws : List Lexeme} {zeros : Nat} {n : Int}

/-- A line end may stand at the end of a text, or nothing. -/
theorem exists_words_ending (h : ending = [] ∨ ending = ['\n']) : ∃ ws, Words ending ws ∧
    (ws.map Prod.fst = [.eof] ∨ ws.map Prod.fst = [.eol, .eof]) ∧ ∀ c ∈ ending.head?, c = '\n' := by
  have hnil : Words [] [(.eof, [])] := .last (n := 0) rfl
  rcases h with rfl | rfl
  · exact ⟨_, hnil, .inl rfl, nofun⟩
  · refine ⟨_, .longest (w := ['\n']) (.mark [] (by decide)) (by decide) hnil, .inr rfl, by simp⟩

/-- A run of digits. -/
theorem words_digits (hne : digits ≠ []) (hdigits : ∀ c ∈ digits, c.isDigit) (hshort : digits.length ≤ maxDigits)
    (hr : ∀ c ∈ r.head?, c.isDigit = false) (hws : Words r ws) :
    Words (digits ++ r) ((if Decimal.value digits ≤ 32767 then .number else .invalid, digits) :: ws) := by
  have hrun : LongestRun Char.isDigit (digits ++ r) digits := ⟨hdigits, r, rfl, hr⟩
  exact .longest (.number hne hrun) (by rwa [longestRun_iff.1 hrun]) hws

theorem words_minus (hws : Words cs ws) : Words ('-' :: cs) ((.sign .minus, ['-']) :: ws) :=
  .longest (w := ['-']) (.mark cs (by decide)) (Nat.zero_le maxDigits) hws

/-- The word PRINT in front of something that starts with no capital letter. -/
theorem words_printKeyword (hcs : ∀ c ∈ cs.head?, c.isUpper = false) (hws : Words cs ws) :
    Words ("PRINT".toList ++ cs) ((.keyword .print, "PRINT".toList) :: ws) := by
  have hupper : "PRINT".toList.all Char.isUpper := by decide
  exact .longest (.word (by decide) ⟨List.all_eq_true.1 hupper, cs, rfl, hcs⟩ (by decide)) (Nat.zero_le maxDigits) hws

/-- The words of a literal. -/
theorem words_literal (hshort : (paddedDigits zeros n.natAbs).length ≤ maxDigits)
    (hr : ∀ c ∈ r.head?, c.isDigit = false) (hws : Words r ws) : Words (literal zeros n ++ r)
      ((if n < 0 then [(.sign .minus, ['-'])] else []) ++
        (if n.natAbs ≤ 32767 then .number else .invalid, paddedDigits zeros n.natAbs) :: ws) := by
  have hdigits := words_digits paddedDigits_ne_nil (fun _ => isDigit_of_mem_paddedDigits) hshort hr hws
  rw [value_paddedDigits] at hdigits
  rw [literal]
  split
  · exact words_minus hdigits
  · exact hdigits

theorem head?_literal {c : Char} (hc : c ∈ (literal zeros n ++ r).head?) : c = '-' ∨ c.isDigit := by
  rw [literal] at hc
  split at hc
  · exact .inl (Option.some.inj hc).symm
  · have hne : paddedDigits zeros n.natAbs ≠ [] := paddedDigits_ne_nil
    obtain ⟨d, ds, hds⟩ := List.exists_cons_of_ne_nil hne
    rw [hds] at hc
    obtain rfl : d = c := Option.some.inj hc
    exact .inr (isDigit_of_mem_paddedDigits (hds ▸ List.mem_cons_self))

/-- The words of a line that prints a literal. -/
theorem words_print (hblanks : blanks.all isBlank) (hshort : (paddedDigits zeros n.natAbs).length ≤ maxDigits)
    (hr : ∀ c ∈ r.head?, c.isDigit = false) (hws : Words r ws) :
    Words ("PRINT".toList ++ (blanks ++ (literal zeros n ++ r)))
      ((.keyword .print, "PRINT".toList) :: ((if n < 0 then [(.sign .minus, ['-'])] else []) ++
        (if n.natAbs ≤ 32767 then .number else .invalid, paddedDigits zeros n.natAbs) :: ws)) := by
  refine words_printKeyword (fun c hc => ?_) (.of_passes (passes_of_blanks hblanks) (words_literal hshort hr hws))
  cases blanks with
  | nil =>
    rcases head?_literal hc with rfl | hdigit
    · rfl
    · exact Bool.eq_false_iff.2 fun hupper => by
        rw [Lexeme.isDigit_eq_false_of_isUpper hupper] at hdigit
        cases hdigit
  | cons b blanks =>
    obtain rfl : b = c := Option.some.inj hc
    exact isUpper_eq_false_of_isBlank _ (List.all_eq_true.1 hblanks _ List.mem_cons_self)

end Words

/-! ### The program -/

/-- A text is a program if its words spell one. -/
theorem Program.exists_parse_of_words {source : List Char} {ws : List Lexeme} {front : List Tag}
    {lines : List ParsedLine} {clauses : List Clause} (hwords : Words source ws)
    (hws : ws.map Prod.fst = front ++ [.eof]) (hlines : Grammar.Derives front lines)
    (hmeans : List.Forall₂ (Clause.MeantBy ws) lines clauses) : ∃ p, Program.parse source = .ok p ∧ p.Means clauses := by
  obtain ⟨tokens, hscan, rfl⟩ := words_iff_scan.1 hwords
  have htags : tokens.map Token.tag = front ++ [.eof] := by
    rw [← hws, lexemesOf, List.map_map]
    rfl
  obtain ⟨ts, us, rfl, rfl, hus⟩ := List.map_eq_append_iff.1 htags
  obtain ⟨eof, rfl, -⟩ := List.map_eq_singleton_iff.1 hus
  have hderived : (⟨source, (ts ++ [eof]).toArray, Arena.ofLines lines⟩ : Program).DerivedFrom lines :=
    ⟨ts, eof, hscan, rfl, hlines, rfl⟩
  exact ⟨_, parse_eq_ok_iff.2 ⟨rfl, lines, hderived⟩, lines, hderived, hmeans⟩

/-- The tokens of a program. -/
theorem Program.exists_scan_of_parse {source : List Char} {p : Program} (h : Program.parse source = .ok p) :
    ∃ tokens, scan source = .ok tokens ∧ ofTokens source tokens = .ok p := by
  cases hscan : scan source with
  | error e =>
    rw [Program.parse, hscan] at h
    cases h
  | ok tokens =>
    rw [parse_of_scan hscan] at h
    cases hof : ofTokens source tokens with
    | error e =>
      rw [hof] at h
      cases h
    | ok q =>
      rw [hof] at h
      obtain rfl : q = p := Except.ok.inj h
      exact ⟨tokens, rfl, hof⟩

/-- The sum that a literal stands for. -/
def literalSum (n : Int) (hn : n.natAbs ≤ 32767) : PlainExpr .sum :=
  .signed (if n < 0 then .minus else .plus) (.factor (.number ⟨n.natAbs, Nat.lt_succ_of_le hn⟩))

/-- The line that prints a literal. -/
def literalClause (n : Int) (hn : n.natAbs ≤ 32767) : Clause := ⟨0, ⟨none, .print () (.value (literalSum n hn)) []⟩⟩

section Parse

variable {source blanks ending : List Char} {zeros : Nat} {n : Int}

/-- A line that prints an expression, with a line end or without one. -/
theorem Grammar.derives_print {e : ParsedExpr .sum} {ls : List Leaf} {front tail : List Tag} (he : e.SpelledBy ls)
    (hnesting : e.nesting ≤ maxNesting) (hls : leavesOf front = (.keyword .print, 0) :: ls)
    (htail : tail = [.eof] ∨ tail = [.eol, .eof]) :
    ∃ behind, front ++ tail = front ++ behind ++ [.eof] ∧
      Derives (front ++ behind) [⟨none, .print 0 (.value e) []⟩] := by
  have hline : LineSpelledBy (some ⟨none, .print 0 (.value e) []⟩) ((.keyword .print, 0) :: ls) := by
    have hprint : Stmt.SpelledBy (.print 0 (.value e) []) ((.keyword .print, 0) :: ls ++ []) :=
      .print 0 (.value he) .nil
    rw [List.append_nil] at hprint
    exact .naked hprint
  have hshallow : ∀ line ∈ [(⟨none, .print 0 (.value e) []⟩ : ParsedLine)], line.body.nesting ≤ maxNesting := by
    simpa [Stmt.nesting, Item.nesting] using hnesting
  rcases htail with rfl | rfl
  · refine ⟨[], by rw [List.append_nil], ?_, hshallow⟩
    rw [List.append_nil, hls]
    exact .last hline
  · refine ⟨[.eol], by rw [List.append_assoc]; rfl, ?_, hshallow⟩
    rw [leavesOf, List.zipIdx_append, ← leavesOf, hls]
    exact .line _ hline .nil

/-- A line that prints a literal is a program. -/
theorem Program.exists_parse_literal (hn : n.natAbs ≤ 32767) (hblanks : blanks.all isBlank)
    (hshort : (paddedDigits zeros n.natAbs).length ≤ maxDigits) (hending : ending = [] ∨ ending = ['\n']) :
    ∃ p, Program.parse ("PRINT".toList ++ (blanks ++ (literal zeros n ++ ending))) = .ok p ∧
      p.Means [literalClause n hn] := by
  obtain ⟨tail, htail, htags, hhead⟩ := exists_words_ending hending
  have hwords := words_print hblanks hshort (fun c hc => by rw [hhead c hc]; rfl) htail
  rw [if_pos hn] at hwords
  by_cases hneg : n < 0
  · rw [if_pos hneg] at hwords
    have hls : leavesOf [.keyword .print, .sign .minus, .number] =
        [(.keyword .print, 0), (.sign .minus, 1), (.number, 2)] := rfl
    obtain ⟨behind, hfront, hderives⟩ :=
      Grammar.derives_print (.signed .minus 1 (.factor (.number 2))) (by decide) hls htags
    refine exists_parse_of_words hwords hfront hderives (.cons ⟨?_, rfl⟩ .nil)
    rw [literalClause, literalSum, if_pos hneg]
    exact .naked (.print ⟨_, rfl, rfl⟩
      (.value (.signed _ (.factor (.number ⟨_, rfl, rfl, unsigned?_paddedDigits _ _⟩)))) .nil)
  · rw [if_neg hneg] at hwords
    have hls : leavesOf [.keyword .print, .number] = [(.keyword .print, 0), (.number, 1)] := rfl
    obtain ⟨behind, hfront, hderives⟩ := Grammar.derives_print (.unsigned (.factor (.number 1))) (by decide) hls htags
    refine exists_parse_of_words hwords hfront hderives (.cons ⟨?_, rfl⟩ .nil)
    rw [literalClause, literalSum, if_neg hneg]
    exact .naked (.print ⟨_, rfl, rfl⟩
      (.value (.signed _ (.factor (.number ⟨_, rfl, rfl, unsigned?_paddedDigits _ _⟩)))) .nil)

/-- The least number has digits that are no token of the language. -/
theorem Program.parse_least (hblanks : blanks.all isBlank)
    (hshort : (paddedDigits zeros 32768).length ≤ maxDigits) (hending : ending = [] ∨ ending = ['\n'])
    (hsource : source = "PRINT".toList ++ (blanks ++ (literal zeros (-32768) ++ ending))) :
    ∃ tokens t, Program.parse source = .error (.parse tokens (.wrong ⟨.expectExpression, 2⟩)) ∧
      tokens[2]? = some t ∧ t.tag = .invalid ∧ t.text source = paddedDigits zeros 32768 := by
  obtain ⟨tail, htail, htags, hhead⟩ := exists_words_ending hending
  have hwords := words_print (n := -32768) hblanks hshort (fun c hc => by rw [hhead c hc]; rfl) htail
  rw [← hsource] at hwords
  obtain ⟨tokens, hscan, hlexemes⟩ := words_iff_scan.1 hwords
  -- The scanner does not take the digits for a number, so no expression stands behind the sign.
  have hparse : Grammar.parse (tokens.map Token.tag) = .error (.wrong ⟨.expectExpression, 2⟩) := by
    have hmap : tokens.map Token.tag = .keyword .print :: .sign .minus :: .invalid :: tail.map Prod.fst := by
      have htag := congrArg (List.map Prod.fst) hlexemes
      rwa [lexemesOf, List.map_map] at htag
    rw [hmap]
    rcases htags with htags | htags
    all_goals
      rw [htags]
      rfl
  have hget := congrArg (fun ws => ws[2]?) hlexemes
  rw [lexemesOf, List.getElem?_map] at hget
  obtain ⟨t, ht, hlexeme⟩ := Option.map_eq_some_iff.1 hget
  obtain ⟨htag, htext⟩ := Prod.mk.inj hlexeme
  refine ⟨tokens, t, ?_, ht, htag, htext⟩
  rw [parse_of_scan hscan, ofTokens, hparse]
  rfl

end Parse

/-! ### The run -/

section Run

variable {m : Machine} {n : Int}

theorem value_literalSum (hn : n.natAbs ≤ 32767) (m : Machine) :
    ∃ w : Word, w.val = n ∧ (literalSum n hn).value m = (.ok w, m) := by
  rw [literalSum]
  split
  · have hfits : InRange (-(n.natAbs : Int)) := ⟨by omega, by omega⟩
    refine ⟨⟨-n.natAbs, hfits⟩, show -(n.natAbs : Int) = n by omega, ?_⟩
    show Run.require (Word.checked (-(n.natAbs : Int))) m = _
    rw [Word.checked, dif_pos hfits]
    rfl
  · refine ⟨.ofNumeral ⟨n.natAbs, Nat.lt_succ_of_le hn⟩, ?_, rfl⟩
    show (n.natAbs : Int) = n
    omega

theorem Run.put_of_accepted (h : m.console.writes ∉ m.console.failing) (text : String) :
    Run.put text m = (.ok (), { m with console := m.console.wrote text }) := by
  have hwrite : m.console.write text = (.ok (), m.console.wrote text) := by
    rw [Console.write, if_neg h]
    rfl
  rw [Run.put, Console.print, hwrite]

/-- PRINT with a literal prints the number. -/
theorem exec_literal (hn : n.natAbs ≤ 32767) (table : Int → Option Nat) (h : m.console.writes ∉ m.console.failing) :
    (literalClause n hn).line.body.exec table m =
      (.ok (), { m with console := m.console.wrote (toString n ++ "\n") }) := by
  obtain ⟨w, hw, hvalue⟩ := value_literalSum hn m
  have hitems : [Item.value (literalSum n hn)].mapM Item.printed m = (.ok [toString n], m) := by
    rw [List.mapM_cons, bind_apply, Item.printed, bind_apply, hvalue, ← hw]
    rfl
  show ([Item.value (literalSum n hn)].mapM Item.printed >>= fun texts =>
    Run.put (" ".intercalate texts ++ "\n")) m = _
  rw [bind_apply, hitems]
  exact Run.put_of_accepted h _

theorem steps_literal (hn : n.natAbs ≤ 32767) {c : Console} (hc : c.writes ∉ c.failing) (limit : Nat) (seed : Int) :
    (Machine.initial c seed).stepsFrom [literalClause n hn] 0 (limit + 2) =
      (1, .finished, { Machine.initial (c.wrote (toString n ++ "\n")) seed with position := 1 }) := by
  have hfirst : (Machine.initial c seed).step [literalClause n hn] =
      (.more, { Machine.initial (c.wrote (toString n ++ "\n")) seed with position := 1 }) := by
    have hexec := exec_literal (m := { Machine.initial c seed with position := (Machine.initial c seed).position + 1 })
      hn (lastNumbered · [literalClause n hn]) hc
    have hclause : [literalClause n hn][(Machine.initial c seed).position]? = some (literalClause n hn) := rfl
    rw [Machine.step, hclause]
    dsimp only
    rw [hexec]
    rfl
  rw [Machine.stepsFrom, hfirst]
  rfl

namespace Batch

variable {p : Program} {image : Image} {source : List Char} {c : Console} {seed : Int} {limit done : Nat} {s : State}

/-- A program that comes to its end leaves no report. -/
theorem run_finished (hparse : Program.parse source = .ok p) (himage : Image.ofProgram p = .ok image)
    (hsteps : image.steps limit (.initial c seed) = (done, .finished, s)) :
    run limit seed false source c = (.ok (some (p, s)), s.console) := by
  obtain ⟨tokens, hscan, hof⟩ := Program.exists_scan_of_parse hparse
  have hload : load false source c = (.ok (some p), c) := by
    rw [load, hscan]
    dsimp only
    rw [hof]
    rfl
  have hrun : runProgram limit seed p c = (.ok s, s.console) := by
    rw [runProgram, himage, sound_ok, pure_bind, bind_apply, execute, hsteps]
    rfl
  rw [run, bind_apply, hload]
  dsimp only
  rw [bind_apply, hrun]
  rfl

/-- Every spelling of an integer but the least one is read as that integer: a program that prints it runs to its end and
prints the decimal form. The digits of the least integer are too large a number, and the program that prints it does not
parse because of them. -/
theorem run_print_literal {blanks ending : List Char} {zeros : Nat} {n : Int} (hn : InRange n)
    (hblanks : blanks.all isBlank) (hshort : (paddedDigits zeros n.natAbs).length ≤ maxDigits)
    (hending : ending = [] ∨ ending = ['\n'])
    (hsource : source = "PRINT".toList ++ (blanks ++ (literal zeros n ++ ending))) :
    (n ≠ -32768 → ∃ p, Program.parse source = .ok p ∧ ∀ limit seed c, c.writes ∉ c.failing →
      ∃ s, run (limit + 2) seed false source c = (.ok (some (p, s)), s.console) ∧
        s.console = c.wrote (toString n ++ "\n") ∧ s.counter = 1 ∧ s.errors = []) ∧
    (n = -32768 → ∃ tokens t, Program.parse source = .error (.parse tokens (.wrong ⟨.expectExpression, 2⟩)) ∧
      tokens[2]? = some t ∧ t.tag = .invalid ∧ t.text source = paddedDigits zeros 32768) := by
  refine ⟨fun hne => ?_, ?_⟩
  · have hfits : n.natAbs ≤ 32767 := by
      obtain ⟨hlo, hhi⟩ := hn
      omega
    obtain ⟨p, hparse, hmeans⟩ := Program.exists_parse_literal hfits hblanks hshort hending
    rw [← hsource] at hparse
    obtain ⟨image, himage, -, hrep⟩ := hmeans.exists_image
    refine ⟨p, hparse, fun limit seed c hc => ?_⟩
    have hsteps : image.steps (limit + 2) (.initial c seed) =
        (1, .finished, { State.initial (c.wrote (toString n ++ "\n")) seed with counter := 1 }) := by
      rw [Image.steps, ← Machine.toState_initial, hrep.stepsFrom_eq, steps_literal hfits hc,
        ← Machine.toState_initial]
      rfl
    exact ⟨_, run_finished hparse himage hsteps, rfl, rfl, rfl⟩
  · rintro rfl
    exact Program.parse_least hblanks hshort hending hsource

/-- A negative number with zeros in front of its digits. -/
theorem run_print_literal_padded : ∃ p, Program.parse "PRINT \t-00032767\n".toList = .ok p ∧
    ∃ s, run 5 42 false "PRINT \t-00032767\n".toList (.ofInput []) = (.ok (some (p, s)), s.console) ∧
      s.console = (Console.ofInput []).wrote "-32767\n" ∧ s.counter = 1 ∧ s.errors = [] := by
  have hsource : "PRINT \t-00032767\n".toList = "PRINT".toList ++ ([' ', '\t'] ++ (literal 3 (-32767) ++ ['\n'])) := by
    decide
  obtain ⟨p, hparse, hrun⟩ := (run_print_literal (by decide) (by decide) (by decide) (.inr rfl) hsource).1 (by decide)
  exact ⟨p, hparse, hrun 3 42 (.ofInput []) (by decide)⟩

/-- The least number has no spelling that can be printed. -/
theorem not_parse_print_least : InRange (-32768) ∧ literal 0 (-32768) = "-32768".toList ∧
    ∀ p, Program.parse ("PRINT".toList ++ ([' '] ++ (literal 0 (-32768) ++ []))) ≠ .ok p := by
  refine ⟨by decide, by decide, fun p hparse => ?_⟩
  have hblanks : [' '].all isBlank := by decide
  have hshort : (paddedDigits 0 32768).length ≤ maxDigits := by decide
  obtain ⟨tokens, t, herror, -⟩ := Program.parse_least hblanks hshort (.inl rfl) rfl
  rw [herror] at hparse
  cases hparse

end Batch

end Run

end LineBasic

import LineBasic.Proofs.Batch.Loading
import LineBasic.Proofs.Machine.Refinement
import LineBasic.Proofs.Program.Words
import LineBasic.Proofs.Token.Numerals

/-!
# Batch runs

A batch run does what a session does that runs the program, and reports the error in which it ended. Listings stand in
front of all that and change nothing else. It leaves nothing unreported but a text that cannot be cut into tokens,
which is one with a numeral of too many digits.

## Main definitions

* `State.reports`: the reports of the errors of a state.
* `Batch.Shows`: what stands on the console after a run.

## Main results

* `Image.Represents.play_run`: the session that runs a program.
* `Batch.run_program`: batch runs of programs.
* `Batch.run_eq_session`: batch runs and sessions.
* `Batch.run_completes_iff`: which texts are run or reported.
-/

namespace LineBasic

/-- The reports of the errors of a state. -/
def State.reports (p : Program) (s : State) : String := String.join (s.errors.map (·.report p))

theorem Outcome.eq_of_error? {o : Outcome} {a : Abort} (h : o.error? = .error a) : o = .aborted a := by
  cases o with
  | more | finished | failed _ => cases h
  | aborted a =>
    cases h
    rfl

theorem Outcome.recorded_of_error? {o : Outcome} {e : Option RuntimeError} (h : o.error? = .ok e) :
    o.recorded = e.toList := by
  cases o with
  | more | finished | failed _ =>
    cases h
    rfl
  | aborted a => cases h

/-- The session that runs a program. -/
theorem Image.Represents.play_run {image : Image} {clauses : List Clause} (h : image.Represents clauses) (limit : Nat)
    (c : Console) (seed : Int) : Session.play image limit (.initial c seed) [.run] =
      (image.steps limit (.initial c.cleared seed)).2.1.error?.map fun e =>
        [⟨.silent, e, (image.steps limit (.initial c.cleared seed)).2.2⟩] := by
  have hcleared : (Machine.initial c seed).cleared = Machine.initial c.cleared seed := rfl
  have hsteps := h.stepsFrom_eq 0 limit (Machine.initial c.cleared seed)
  rw [Image.steps, ← Machine.toState_initial, ← Machine.toState_initial, hsteps, Session.play, h.apply_run,
    Session.replyOf, hcleared]
  cases ((Machine.initial c.cleared seed).stepsFrom clauses 0 limit).2.1.error? with
  | error a => rfl
  | ok e => rfl

/-- A text of nothing but too many digits cannot be cut into tokens. -/
theorem scan_eq_error_of_digits {cs : List Char} (h : cs.all Char.isDigit) (hlength : maxDigits < cs.length) :
    scan cs = .error .numeralTooLong := by
  refine Scanner.tokens_eq_error_iff.2 ⟨.start cs, .here, ?_⟩
  cases cs with
  | nil => cases hlength
  | cons c cs =>
    have hc : c.isDigit := List.all_eq_true.1 h c List.mem_cons_self
    have hdigits : (Scanner.start (c :: cs)).digits = c :: cs := by
      rw [Scanner.digits, Scanner.start, Lexeme.gap_eq_zero_of_isDigit hc, List.drop_zero]
      have happend : (c :: cs ++ []).takeWhile Char.isDigit = c :: cs ++ [].takeWhile Char.isDigit :=
        List.takeWhile_append_of_pos (List.all_eq_true.1 h)
      rwa [List.takeWhile_nil, List.append_nil] at happend
    rw [hdigits]
    exact hlength

namespace Batch

variable {source : List Char} {tokens : List Token} {c : Console} {p : Program} {image : Image}

/-! ### The end of a run -/

/-- The console after the report of an outcome. -/
def reported (p : Program) (o : Outcome) (c : Console) : Console :=
  match o with
  | .failed e => c.wrote (e.report p)
  | _ => c

theorem conclude_eq (hc : c.failing = []) {o : Outcome} {e : Option RuntimeError} (ho : o.error? = .ok e) :
    conclude p o c = (.ok (), reported p o c) := by
  cases o with
  | more | finished => rfl
  | failed e => exact put_eq hc _
  | aborted a => cases ho

/-- A run that is not broken off is reported. -/
theorem runProgram_eq (himage : Image.ofProgram p = .ok image) {limit done : Nat} {seed : Int} {o : Outcome} {s : State}
    (hsteps : image.steps limit (.initial c seed) = (done, o, s)) (hs : s.console.failing = [])
    {e : Option RuntimeError} (ho : o.error? = .ok e) :
    runProgram limit seed p c =
      (.ok { s with console := reported p o s.console }, reported p o s.console) := by
  rw [runProgram, himage, sound_ok, pure_bind, bind_apply, execute, hsteps]
  dsimp only
  rw [bind_apply, conclude_eq hs ho]
  rfl

/-- A run that is broken off by a fault ends with it. -/
theorem runProgram_fault (himage : Image.ofProgram p = .ok image) {limit done : Nat} {seed : Int} {f : Fault}
    {s : State} (hsteps : image.steps limit (.initial c seed) = (done, .aborted (.fault f), s)) :
    runProgram limit seed p c = (.error (.fault f), s.console) := by
  rw [runProgram, himage, sound_ok, pure_bind, bind_apply, execute, hsteps]
  rfl

@[simp] theorem reported_output (p : Program) (o : Outcome) (c : Console) :
    (reported p o c).output = c.output ++ String.join (o.recorded.map (·.report p)) := by
  cases o with
  | failed e => simp [reported, Outcome.recorded]
  | _ => simp [reported, Outcome.recorded]

@[simp] theorem reported_diagnostics (p : Program) (o : Outcome) (c : Console) :
    (reported p o c).diagnostics = c.diagnostics := by cases o <;> rfl

@[simp] theorem reported_input (p : Program) (o : Outcome) (c : Console) : (reported p o c).input = c.input := by
  cases o <;> rfl

/-! ### Whole runs -/

/-- A text that cannot be cut into tokens is neither run nor reported. -/
theorem run_error {e : ScanError} (h : scan source = .error e) (limit : Nat) (seed : Int) (debug : Bool) (c : Console) :
    run limit seed debug source c = (.error (.scan e), c) := by
  rw [run, bind_apply, load_eq_error h]

/-- A text that is no program is reported. -/
theorem run_report (hc : c.failing = []) (h : scan source = .ok tokens) {e : SyntaxError}
    (hparse : Program.ofTokens source tokens = .error (.wrong e)) (limit : Nat) (seed : Int) (debug : Bool) :
    run limit seed debug source c =
      (.ok none, (c.wroteIf debug (listTokens source tokens)).wrote (e.report source tokens)) := by
  rw [run, bind_apply, load_eq_report hc h hparse]
  rfl

/-- What stands on the console after the batch run of a program: first a listing, then what a session that runs the
program puts out, and then the reports of the errors. -/
structure Shows (listing : String) (p : Program) (reply : Session.Reply) (c c' : Console) : Prop where
  output : c'.output = c.output ++ (listing ++ reply.state.console.output ++ reply.state.reports p)
  diagnostics : c'.diagnostics = c.diagnostics ++ reply.state.console.diagnostics
  input : c'.input = reply.state.console.input

/-- A program does the same in a batch run and in a session that runs it. -/
theorem run_program (hc : c.failing = []) (h : scan source = .ok tokens)
    (hparse : Program.ofTokens source tokens = .ok p) :
    ∃ image listing, Image.ofProgram p = .ok image ∧ p.listNodes = .ok listing ∧ ∀ limit seed debug,
      (Session.play image limit (.initial c seed) [.run] = .error (.fault .noDraw) ∧
        (run limit seed debug source c).1 = .error (.fault .noDraw)) ∨
      ∃ reply c', Session.play image limit (.initial c seed) [.run] = .ok [reply] ∧
        run limit seed debug source c = (.ok (some (p, { reply.state with console := c' })), c') ∧
        reply.state.errors = reply.error.toList ∧
        Shows (if debug then listTokens source tokens ++ listing else "") p reply c c' := by
  obtain ⟨lines, hlines⟩ := (Program.parse_eq_ok_iff.1 (parse_eq_ok h hparse)).2
  obtain ⟨clauses, hclauses⟩ := hlines.exists_means
  obtain ⟨image, himage, -, hrep⟩ := hclauses.exists_image
  obtain ⟨listing, hlisting⟩ := hlines.wellKinded.exists_listing
  refine ⟨image, listing, himage, hlisting, fun limit seed debug => ?_⟩
  have hbehind : c.cleared.Behind (c.output ++ if debug then listTokens source tokens ++ listing else "") c.diagnostics
      ((c.wroteIf debug (listTokens source tokens)).wroteIf debug listing) := by
    refine ⟨hc, by simp [hc], by simp [Console.cleared], by simp [Console.cleared], ?_, by simp [Console.cleared]⟩
    cases debug <;> simp [Console.cleared, String.append_assoc]
  have hload : load debug source c = _ := load_eq_program hc h hparse hlisting
  generalize (c.wroteIf debug (listTokens source tokens)).wroteIf debug listing = d at hbehind hload
  -- The session starts with nothing put out, and the batch run with the listings.
  obtain ⟨houtcome, hlike⟩ := image.steps_behind limit seed hbehind
  rw [hrep.play_run, run, bind_apply, hload]
  dsimp only
  rcases hsession : image.steps limit (.initial c.cleared seed) with ⟨done, o, s⟩
  rcases hbatch : image.steps limit (.initial d seed) with ⟨done', o', t⟩
  rw [hsession, hbatch] at houtcome hlike
  obtain rfl : o' = o := houtcome
  cases ho : o'.error? with
  | error a =>
    left
    obtain rfl := Outcome.eq_of_error? ho
    obtain rfl := hrep.aborted_eq_noDraw (c := c.cleared) hc (congrArg (fun result => result.2.1) hsession)
    rw [bind_apply, runProgram_fault himage hbatch]
    exact ⟨rfl, rfl⟩
  | ok e =>
    right
    have herrors : s.errors = e.toList := hlike.left.trans (Outcome.recorded_of_error? ho)
    refine ⟨⟨.silent, e, s⟩, reported p o' t.console, rfl, ?_, herrors, ?_, ?_, ?_⟩
    · rw [bind_apply, runProgram_eq himage hbatch hlike.console.right ho, hlike.withConsole_eq]
      rfl
    · rw [reported_output, hlike.console.output, State.reports, hlike.left]
      simp only [String.append_assoc]
    · rw [reported_diagnostics, hlike.console.diagnostics]
    · rw [reported_input, hlike.console.input]

/-! ### Batch runs and sessions -/

/-- A batch run of a text that can be cut into tokens is a session that runs the program, with the report of the error
in which it ends, or it is the report that the text is no program. Listings come first and change nothing else. The
only other end is that of a text that cannot be cut into tokens, which is given up without a word. -/
theorem run_eq_session (source : List Char) {c : Console} (hc : c.failing = []) :
    (∀ e, scan source = .error e → ∀ limit seed debug, run limit seed debug source c = (.error (.scan e), c)) ∧
    ∀ tokens, scan source = .ok tokens →
      (∃ e, Program.parse source = .error (.parse tokens (.wrong e)) ∧ ∀ limit seed debug,
        ∃ c', run limit seed debug source c = (.ok none, c') ∧
          c'.output = c.output ++ ((if debug then listTokens source tokens else "") ++ e.report source tokens) ∧
          c'.diagnostics = c.diagnostics ∧ c'.input = c.input) ∨
      ∃ p image listing, Program.parse source = .ok p ∧ Image.ofProgram p = .ok image ∧ p.listNodes = .ok listing ∧
        ∀ limit seed debug,
          (Session.play image limit (.initial c seed) [.run] = .error (.fault .noDraw) ∧
            (run limit seed debug source c).1 = .error (.fault .noDraw)) ∨
          ∃ reply c', Session.play image limit (.initial c seed) [.run] = .ok [reply] ∧
            run limit seed debug source c = (.ok (some (p, { reply.state with console := c' })), c') ∧
            reply.state.errors = reply.error.toList ∧
            Shows (if debug then listTokens source tokens ++ listing else "") p reply c c' := by
  refine ⟨fun e he limit seed debug => run_error he limit seed debug c, fun tokens h => ?_⟩
  rcases ofTokens_cases h with ⟨e, hparse⟩ | ⟨p, hparse⟩
  · refine .inl ⟨e, parse_eq_error h hparse, fun limit seed debug => ⟨_, run_report hc h hparse limit seed debug, ?_⟩⟩
    simp [String.append_assoc]
  · obtain ⟨image, listing, himage, hlisting, hruns⟩ := run_program hc h hparse
    exact .inr ⟨p, image, listing, parse_eq_ok h hparse, himage, hlisting, hruns⟩

/-- A program that divides by zero in its second line. -/
def quotient : List Char := "PRINT 1\nPRINT 1/0\n".toList

/-- The listings, then what the first line prints, and then the report of the error in the second one. -/
theorem run_eq_session_quotient : ∃ tokens p listing state c', scan quotient = .ok tokens ∧
    p.listNodes = .ok listing ∧ run 2 0 true quotient (.ofInput []) = (.ok (some (p, state)), c') ∧
    c'.output =
      listTokens quotient tokens ++ listing ++ "1\nerror: division_by_zero\nPRINT 1/0\n~~~~~\n" := by
  have htest : (Program.parse quotient).toOption.any (fun p => (Image.ofProgram p).toOption.any fun image =>
      (Session.play image 2 (.initial (.ofInput []) 0) [.run]).toOption.any fun replies =>
        decide (replies.map (fun r => r.state.console.output ++ r.state.reports p) =
          ["1\nerror: division_by_zero\nPRINT 1/0\n~~~~~\n"])) = true := by decide +kernel
  obtain ⟨p, hp, htest⟩ := exists_ok_of_any htest
  obtain ⟨image, himage, htest⟩ := exists_ok_of_any htest
  obtain ⟨replies, hplay, htest⟩ := exists_ok_of_any htest
  have hscan : (scan quotient).toOption.any (fun _ => true) = true := by decide +kernel
  obtain ⟨tokens, hscan, -⟩ := exists_ok_of_any hscan
  rcases (run_eq_session quotient (c := .ofInput []) rfl).2 tokens hscan with
    ⟨e, hnone, -⟩ | ⟨p', image', listing, hp', himage', hlisting, hruns⟩
  · rw [hp] at hnone
    cases hnone
  · obtain rfl := Except.ok.inj (hp.symm.trans hp')
    obtain rfl := Except.ok.inj (himage.symm.trans himage')
    rcases hruns 2 0 true with ⟨hnone, -⟩ | ⟨reply, c', hplay', hrun, -, hshows⟩
    · rw [hplay] at hnone
      cases hnone
    · obtain rfl := Except.ok.inj (hplay.symm.trans hplay')
      have htext : reply.state.console.output ++ reply.state.reports p =
          "1\nerror: division_by_zero\nPRINT 1/0\n~~~~~\n" := (List.cons.inj (of_decide_eq_true htest)).1
      refine ⟨tokens, p, listing, _, c', hscan, hlisting, hrun, ?_⟩
      rw [hshows.output, String.append_assoc, htext]
      exact String.empty_append

/-- A text of too many digits. -/
def nines : List Char := List.replicate (maxDigits + 1) '9'

/-- Too many digits are given up without a report, so they are neither run nor reported as no program. -/
theorem run_nines : (∀ p, Program.parse nines ≠ .ok p) ∧
    (run 0 0 false nines (.ofInput [])).1 = .error (.scan .numeralTooLong) ∧
    ∀ tokens (e : SyntaxError), e.token < tokens.length →
      (run 0 0 false nines (.ofInput [])).2.output ≠ e.report nines tokens := by
  have hscan : scan nines = .error .numeralTooLong := scan_eq_error_of_digits (by simp [nines]) (by simp [nines])
  rw [run_error hscan]
  refine ⟨fun p hp => ?_, rfl, fun tokens e he hreport => ?_⟩
  · rw [Program.parse, hscan] at hp
    cases hp
  · have hlength := congrArg String.length hreport
    rw [SyntaxError.report, List.getElem?_eq_getElem he] at hlength
    have hline : 0 < "line ".length := by decide
    simp [Console.ofInput] at hlength
    omega

/-- A batch run either reports that a text is no program or runs it, exactly if no token of the text starts at more than
`maxDigits` digits. Then each run of digits at which a token starts is a token by itself, and its value decides about
the tag. Any other text is given up. -/
theorem run_completes_iff (source : List Char) :
    ((∃ tokens, scan source = .ok tokens ∧
        (∀ s, (Scanner.start source).Reaches s → s.digits ≠ [] → ∃ t ∈ tokens,
          t.start = s.position + gap false s.rest ∧ t.stop = t.start + s.digits.length ∧ t.text source = s.digits ∧
          t.tag = if Decimal.value s.digits ≤ maxLiteral then .number else .invalid) ∧
        ∀ limit seed debug c, c.failing = [] →
          (∃ e c', Program.parse source = .error (.parse tokens (.wrong e)) ∧
            run limit seed debug source c = (.ok none, c') ∧
            c'.output = c.output ++ ((if debug then listTokens source tokens else "") ++ e.report source tokens)) ∨
          ∃ p, Program.parse source = .ok p ∧
            ((∃ s c', run limit seed debug source c = (.ok (some (p, s)), c')) ∨
              (run limit seed debug source c).1 = .error (.fault .noDraw))) ↔
      ∀ s, (Scanner.start source).Reaches s → s.digits.length ≤ maxDigits) ∧
    ∀ s, (Scanner.start source).Reaches s → maxDigits < s.digits.length → ∀ limit seed debug c,
      run limit seed debug source c = (.error (.scan .numeralTooLong), c) := by
  constructor
  · -- A text is cut into tokens or else given up, so only the tokens matter.
    rw [← Scanner.exists_tokens_iff]
    constructor
    · rintro ⟨tokens, h, -⟩
      exact ⟨tokens, h⟩
    · rintro ⟨tokens, h⟩
      refine ⟨tokens, h, fun s hs hd => (Scanner.scans_of_tokens h).exists_numeral rfl hs hd, ?_⟩
      intro limit seed debug c hc
      rcases ofTokens_cases h with ⟨e, hparse⟩ | ⟨p, hparse⟩
      · refine .inl ⟨e, _, parse_eq_error h hparse, run_report hc h hparse limit seed debug, ?_⟩
        simp [String.append_assoc]
      · obtain ⟨image, listing, -, -, hruns⟩ := run_program hc h hparse
        refine .inr ⟨p, parse_eq_ok h hparse, ?_⟩
        rcases hruns limit seed debug with ⟨-, hfault⟩ | ⟨reply, c', -, hrun, -⟩
        · exact .inr hfault
        · exact .inl ⟨_, c', hrun⟩
  · intro s hs hlong limit seed debug c
    exact run_error (Scanner.tokens_eq_error_iff.2 ⟨s, hs, hlong⟩) limit seed debug c

/-- Too many digits are not cut into tokens, and every batch run gives them up. -/
theorem scan_nines : (∀ tokens, scan nines ≠ .ok tokens) ∧
    ∀ limit seed debug c, run limit seed debug nines c = (.error (.scan .numeralTooLong), c) := by
  have hscan : scan nines = .error .numeralTooLong := scan_eq_error_of_digits (by simp [nines]) (by simp [nines])
  refine ⟨fun tokens h => ?_, run_error hscan⟩
  rw [hscan] at h
  cases h

end Batch

end LineBasic

import LineBasic.Proofs.Machine.Refinement
import LineBasic.Proofs.Program.Spacing

/-!
# Programs with the same words

Two texts with the same words are the same program up to the offsets of its tokens: the tree is the same, so are the
table of its lines and all sessions, and if one text is no program the other one is none for the same reason. Blanks
and remarks between tokens therefore mean nothing.

## Main results

* `Session.play_eq`: images of the same plain lines have the same sessions.
* `Program.Means.of_words`: programs with the same words have the same plain lines.
* `Program.parse_insertAt`: what becomes of a text when something is put between its tokens.
-/

namespace LineBasic

/-! ### Images of the same plain lines -/

namespace Session

variable {image image' : Image} {clauses : List Clause}

/-- An operation does the same on all images of some plain lines. -/
theorem exists_apply_eq (clauses : List Clause) (limit : Nat) (m : Machine) (op : Op) :
    ∃ r o m', ∀ image : Image, image.Represents clauses → apply image limit m.toState op = replyOf r o m' := by
  cases op with
  | step => exact ⟨_, _, _, fun image h => h.apply_step limit m⟩
  | steps n => exact ⟨_, _, _, fun image h => h.apply_steps limit n m⟩
  | run => exact ⟨_, _, _, fun image h => h.apply_run limit m⟩
  | feed text => exact ⟨.silent, .finished, { m.cleared with console := m.cleared.console.feed text }, fun _ _ => rfl⟩
  | table => exact ⟨.shown m.toState.table, .finished, m.cleared, fun _ _ => rfl⟩

/-- Images of the same plain lines have the same sessions. -/
theorem play_eq (h : image.Represents clauses) (h' : image'.Represents clauses) (limit : Nat) (ops : List Op)
    (m : Machine) : play image' limit m.toState ops = play image limit m.toState ops ∧
      (Ends image' limit m.toState ops ↔ Ends image limit m.toState ops) := by
  suffices hmatches : (play image' limit m.toState ops).map (List.map id) =
        (play image limit m.toState ops).map (List.map id) ∧
      (Ends image' limit m.toState ops ↔ Ends image limit m.toState ops) by
    rwa [List.map_id_fun, Except.map_id] at hmatches
  refine play_matches (fun _ s t => ∃ m : Machine, s = m.toState ∧ t = m.toState) id id ?_ ⟨m, rfl, rfl⟩
  rintro op ops _ _ ⟨m, rfl, rfl⟩
  obtain ⟨r, o, m', happly⟩ := exists_apply_eq clauses limit m op
  refine ⟨fun _ => ?_, replies_of_replyOf (happly image h) (happly image' h') fun e => ⟨rfl, m', rfl, rfl⟩⟩
  have hsteps : image.steps limit m.toState.cleared = _ := h.stepsFrom_eq 0 limit m.cleared
  have hsteps' : image'.steps limit m.toState.cleared = _ := h'.stepsFrom_eq 0 limit m.cleared
  rw [hsteps, hsteps']

end Session

/-! ### Programs with the same words -/

section Words

variable {p p' : Program} {clauses : List Clause} {lines lines' : List ParsedLine}

theorem map_tag_of_lexemesOf {source source' : List Char} {tokens tokens' : List Token}
    (h : lexemesOf source' tokens' = lexemesOf source tokens) : tokens'.map Token.tag = tokens.map Token.tag := by
  have htags := congrArg (List.map Prod.fst) h
  rw [lexemesOf, lexemesOf, List.map_map, List.map_map] at htags
  exact htags

/-- The table of the lines depends on the words and the tree only. -/
theorem enterLines_eq (hwords : p'.lexemes = p.lexemes) (harena : p'.arena = p.arena) {is : List NodeId}
    (h : List.Forall₂ (Clause.ShownIn p.lexemes p.arena) clauses is) (position : Nat) (table : LineTable) :
    Image.enterLines p' position is table = Image.enterLines p position is table := by
  induction h generalizing position table with
  | nil => rfl
  | @cons c i clauses is hc _ ih =>
    have hc' : c.ShownIn p'.lexemes p'.arena i := by
      rw [hwords, harena]
      exact hc
    rw [Image.enterLines, Image.enterLines, hc.lineNumber?_eq, hc'.lineNumber?_eq]
    cases c.line.number with
    | none => exact ih _ _
    | some n => exact ih _ _

/-- The images of programs with the same words differ in the program only. -/
theorem Image.ofProgram_eq (hshows : p.arena.Shows p.lexemes clauses) (hwords : p'.lexemes = p.lexemes)
    (harena : p'.arena = p.arena) :
    Image.ofProgram p' = (Image.ofProgram p).map fun image => { image with program := p' } := by
  obtain ⟨root, hroot, -, -, -, hlines⟩ := hshows.root
  have hroot' : p'.node 0 = .ok root := Program.node_eq (harena ▸ hroot)
  rw [ofProgram_of_root (Program.node_eq hroot), ofProgram_of_root hroot', harena, enterLines_eq hwords harena hlines]
  cases enterLines p 0 (p.arena.children root) [] <;> rfl

/-- Programs with the same words have the same plain lines. -/
theorem Program.Means.of_words (h : p.Means clauses) (h' : p'.DerivedFrom lines) (hwords : p'.lexemes = p.lexemes) :
    p'.Means clauses := by
  obtain ⟨lines', ⟨front, eof, -, htokens, hlines, -⟩, hclauses⟩ := h
  have hsame : lines' = lines := by
    obtain ⟨front', eof', -, htokens', hlines', -⟩ := h'
    have htags := map_tag_of_lexemesOf hwords
    rw [htokens, htokens', List.map_append, List.map_append] at htags
    rw [(List.append_inj' htags rfl).1] at hlines'
    exact hlines.unique hlines'
  exact ⟨lines, h', hwords ▸ hsame ▸ hclauses⟩

/-- Programs with the same words run alike. -/
theorem Program.runs_alike (h : p.DerivedFrom lines) (h' : p'.DerivedFrom lines') (hwords : p'.lexemes = p.lexemes)
    (harena : p'.arena = p.arena) : ∃ image image', Image.ofProgram p = .ok image ∧ Image.ofProgram p' = .ok image' ∧
      image' = { image with program := p' } ∧ ∀ limit console seed ops,
        Session.play image' limit (State.initial console seed) ops =
          Session.play image limit (State.initial console seed) ops ∧
        (Session.Ends image' limit (State.initial console seed) ops ↔
          Session.Ends image limit (State.initial console seed) ops) := by
  obtain ⟨clauses, hclauses⟩ := h.exists_means
  obtain ⟨image, himage, rfl, hrep⟩ := hclauses.exists_image
  obtain ⟨image', himage', rfl, hrep'⟩ := (hclauses.of_words h' hwords).exists_image
  refine ⟨image, image', himage, himage', ?_, fun limit console seed ops => ?_⟩
  · have hsame := Image.ofProgram_eq hrep.shows hwords harena
    rw [himage, himage'] at hsame
    exact Except.ok.inj hsame
  · rw [← Machine.toState_initial]
    exact Session.play_eq hrep hrep' limit ops _

end Words

/-! ### Something put between tokens -/

section Insert

variable {source source' : List Char} {tokens tokens' : List Token}

/-- Texts with the same words are the same program up to offsets, or none for the same reason. -/
theorem Program.parse_alike (h : scan source = .ok tokens) (h' : scan source' = .ok tokens')
    (hwords : lexemesOf source' tokens' = lexemesOf source tokens) :
    (∃ e, Program.parse source = .error (.parse tokens e) ∧ Program.parse source' = .error (.parse tokens' e)) ∨
      ∃ p p', Program.parse source = .ok p ∧ Program.parse source' = .ok p' ∧ p'.lexemes = p.lexemes ∧
        p'.arena = p.arena := by
  rw [parse_of_scan h, parse_of_scan h', ofTokens, ofTokens, map_tag_of_lexemesOf hwords]
  cases Grammar.parse (tokens.map Token.tag) with
  | error e => exact .inl ⟨e, rfl, rfl⟩
  | ok lines => exact .inr ⟨_, _, rfl, rfl, hwords, rfl⟩

/-- Something put at the start of a text or behind one of its tokens means nothing. The words of the text stay the
same, the text is a program if it was one, with the same tree, or else it is none for the same reason, and all
sessions with the program stay the same. -/
theorem Program.parse_insertAt {x : List Char} {k : Nat} (h : scan source = .ok tokens)
    (hvalid : ∀ t ∈ tokens, t.tag ≠ .invalid) (hk : k = 0 ∨ ∃ t ∈ tokens, t.tag ≠ .eof ∧ t.stop = k)
    (hx : Spacing x) : ∃ tokens', scan (insertAt source k x) = .ok tokens' ∧
      lexemesOf (insertAt source k x) tokens' = lexemesOf source tokens ∧
      (∀ e, Program.parse source = .error (.parse tokens e) ↔
        Program.parse (insertAt source k x) = .error (.parse tokens' e)) ∧
      ((∃ p, Program.parse source = .ok p) ↔ ∃ p', Program.parse (insertAt source k x) = .ok p') ∧
      ∀ p p', Program.parse source = .ok p → Program.parse (insertAt source k x) = .ok p' → p'.arena = p.arena ∧
        ∃ image image', Image.ofProgram p = .ok image ∧ Image.ofProgram p' = .ok image' ∧
          image'.table = image.table ∧ ∀ limit console seed ops,
            Session.play image' limit (State.initial console seed) ops =
              Session.play image limit (State.initial console seed) ops ∧
            (Session.Ends image' limit (State.initial console seed) ops ↔
              Session.Ends image limit (State.initial console seed) ops) := by
  obtain ⟨tokens', h', hwords⟩ := exists_scan_insert h hvalid hk hx
  refine ⟨tokens', h', hwords, ?_⟩
  -- Parser, layout and machine see words only, and these are the same.
  rcases parse_alike h h' hwords with ⟨e, he, he'⟩ | ⟨p, p', hp, hp', hsame, harena⟩
  · rw [he, he']
    exact ⟨fun e' => by simp, by simp, fun _ _ hp => nomatch hp⟩
  · obtain ⟨-, lines, hlines⟩ := parse_eq_ok_iff.1 hp
    obtain ⟨-, lines', hlines'⟩ := parse_eq_ok_iff.1 hp'
    obtain ⟨image, image', himage, himage', rfl, hplay⟩ := runs_alike hlines hlines' hsame harena
    rw [hp, hp']
    refine ⟨fun e' => by simp, by simp, fun q q' hq hq' => ?_⟩
    cases hq
    cases hq'
    exact ⟨harena, image, _, himage, himage', rfl, hplay⟩

/-- A remark between the number of a line and its statement. -/
theorem Program.parse_insertAt_remark : ∃ p p' image image',
    Program.parse "10 PRINT A".toList = .ok p ∧ Program.parse "10 REM first\n PRINT A".toList = .ok p' ∧
      p'.arena = p.arena ∧ Image.ofProgram p = .ok image ∧ Image.ofProgram p' = .ok image' ∧
      ∀ limit console seed ops, Session.play image' limit (State.initial console seed) ops =
        Session.play image limit (State.initial console seed) ops := by
  have hscan : scan "10 PRINT A".toList =
      .ok [⟨.number, 0, 2⟩, ⟨.keyword .print, 3, 8⟩, ⟨.var, 9, 10⟩, ⟨.eof, 10, 10⟩] := by decide +kernel
  have hok : (Program.parse "10 PRINT A".toList).toOption.any (fun _ => true) := by decide +kernel
  have hremark : Spacing " REM first\n".toList :=
    .remark (by simp : ∀ c ∈ "first".toList, c ≠ '\n' ∧ c ≠ '\x00')
  obtain ⟨-, -, -, -, hiff, hruns⟩ := parse_insertAt (k := 2) hscan (by decide)
    (.inr ⟨_, List.mem_cons_self, by decide, rfl⟩) hremark
  obtain ⟨p, hp, -⟩ := exists_ok_of_any hok
  obtain ⟨p', hp'⟩ := hiff.1 ⟨p, hp⟩
  obtain ⟨harena, image, image', himage, himage', -, hplay⟩ := hruns p p' hp hp'
  exact ⟨p, p', image, image', hp, hp', harena, himage, himage', fun limit console seed ops =>
    (hplay limit console seed ops).1⟩

end Insert

end LineBasic

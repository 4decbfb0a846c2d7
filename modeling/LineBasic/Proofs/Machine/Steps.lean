import LineBasic.Proofs.Arena.Layout
import LineBasic.Proofs.Machine.Statements

/-!
# Steps of a program and of its plain lines

The image of a parsed program is built, and its steps are those of the structural machine with the plain lines of
the program.

## Main definitions

* `Image.Represents`: the image is one of a program with some plain lines.

## Main results

* `Program.Means.exists_image`: a parsed program has an image.
* `Image.Represents.step_eq`, `Image.Represents.stepsFrom_eq`: the steps agree.
-/

namespace LineBasic

open Arena

/-- The image is one of a program whose arena shows the plain lines, and its table leads to the last line of each
number. -/
structure Image.Represents (image : Image) (clauses : List Clause) : Prop where
  shows : image.program.arena.Shows image.program.lexemes clauses
  lines : List.Forall₂ (Clause.ShownIn image.program.lexemes image.program.arena) clauses image.lines.toList
  table : ∀ n, image.table.find? n = lastNumbered n clauses
  nesting : ∀ c ∈ clauses, c.line.body.nesting ≤ Grammar.maxNesting

/-! ### Building the image -/

section Image

variable {p : Program} {clauses : List Clause}

theorem Clause.ShownIn.lineNumber?_eq {c : Clause} {i : NodeId} (h : c.ShownIn p.lexemes p.arena i) :
    Image.lineNumber? p i = .ok (c.line.number.map Fin.val) := by
  obtain ⟨b, -, hi⟩ := h
  cases hn : c.line.number with
  | none =>
    rw [hn] at hi
    rw [Image.lineNumber?, Program.node_eq hi.2]
    rfl
  | some n =>
    rw [hn] at hi
    obtain ⟨t, ht, hi⟩ := hi
    rw [Image.lineNumber?, Program.node_eq hi.2]
    show (do return some (← p.number t) : Except Fault (Option Nat)) = _
    rw [Program.number_eq ht]
    rfl

theorem lastNumbered_cons (wanted : Int) (c : Clause) (clauses : List Clause) :
    lastNumbered wanted (c :: clauses) =
      ((lastNumbered wanted clauses).map (· + 1)).or
        (if ∃ n ∈ c.line.number, (n.val : Int) = wanted then some 0 else none) := by
  rw [lastNumbered]
  cases lastNumbered wanted clauses with
  | none => rw [Option.map_none, Option.none_or]
  | some k => rw [Option.map_some, Option.some_or]

/-- Entering the lines from a position on makes a table that leads to the last of them, or else where it led
before. -/
theorem exists_enterLines_eq {is : List NodeId} (h : List.Forall₂ (Clause.ShownIn p.lexemes p.arena) clauses is)
    (position : Nat) (table : LineTable) : ∃ table', Image.enterLines p position is table = .ok table' ∧
      ∀ n, table'.find? n = ((lastNumbered n clauses).map (position + ·)).or (table.find? n) := by
  induction h generalizing position table with
  | nil => exact ⟨table, rfl, fun n => by simp [lastNumbered]⟩
  | @cons c i clauses is hc _ ih =>
    cases hn : c.line.number with
    | none =>
      obtain ⟨table', htable, hfind⟩ := ih (position + 1) table
      refine ⟨table', ?_, fun n => ?_⟩
      · rw [Image.enterLines, hc.lineNumber?_eq, hn]
        exact htable
      · rw [hfind, lastNumbered_cons, hn]
        cases lastNumbered n clauses with
        | none => simp
        | some k => simp [Nat.add_assoc, Nat.add_comm 1]
    | some number =>
      obtain ⟨table', htable, hfind⟩ := ih (position + 1) (table.insert number position)
      refine ⟨table', ?_, fun n => ?_⟩
      · rw [Image.enterLines, hc.lineNumber?_eq, hn]
        exact htable
      · -- A later line with the same number hides this one.
        rw [hfind, lastNumbered_cons, hn, LineTable.find?_insert]
        cases lastNumbered n clauses with
        | none => by_cases hnumber : (number.val : Int) = n <;> simp [hnumber]
        | some k => simp [Nat.add_assoc, Nat.add_comm 1]

/-- A parsed program has an image, which represents its plain lines. -/
theorem Program.Means.exists_image (h : p.Means clauses) :
    ∃ image, Image.ofProgram p = .ok image ∧ image.program = p ∧ image.Represents clauses := by
  have hnesting := h.nesting_le
  obtain ⟨lines, ⟨front, eof, -, -, -, harena⟩, hclauses⟩ := h
  have hshows := harena ▸ shows_ofLines hclauses
  obtain ⟨root, hroot, -, -, -, hlines⟩ := hshows.root
  obtain ⟨table, htable, hfind⟩ := exists_enterLines_eq hlines 0 []
  refine ⟨⟨p, (p.arena.children root).toArray, table⟩, ?_, rfl, hshows, hlines, fun n => ?_, hnesting⟩
  · rw [Image.ofProgram_of_root (Program.node_eq hroot), htable]
    rfl
  · simp [hfind]

/-- What is parsed has plain lines, and an image that represents them. -/
theorem Program.exists_image_of_parse {source : List Char} (hp : Program.parse source = .ok p) :
    ∃ clauses image, p.Means clauses ∧ Image.ofProgram p = .ok image ∧ image.program = p ∧
      image.Represents clauses := by
  obtain ⟨-, lines, hlines⟩ := Program.parse_eq_ok_iff.1 hp
  obtain ⟨clauses, hclauses⟩ := hlines.exists_means
  obtain ⟨image, himage, hprogram, hrep⟩ := hclauses.exists_image
  exact ⟨clauses, image, hclauses, himage, hprogram, hrep⟩

end Image

/-! ### Steps -/

section Steps

variable {image : Image} {clauses : List Clause}

theorem Image.evaluate_line {frames : Nat} {i b : NodeId} {n : Node} (h : image.program.arena.Has i n)
    (hb : n.lhs = some b) (htag : n.tag = .nakedLine ∨ n.tag = .markedLine) :
    image.evaluate (frames + 1) i = image.evaluate frames b := by
  obtain ⟨tag, token, lhs, rhs⟩ := n
  dsimp only at hb htag
  subst hb
  rw [evaluate_succ, evaluateWith, Program.node_eq h.2]
  rcases htag with rfl | rfl
  · rfl
  · rfl

namespace Image.Represents

/-- The line at a position, with the token of its statement. -/
theorem exists_line (h : image.Represents clauses) {position : Nat} {c : Clause}
    (hc : clauses[position]? = some c) : ∃ i b n, image.lines[position]? = some i ∧
      image.program.arena.Has i n ∧ n.lhs = some b ∧ (n.tag = .nakedLine ∨ n.tag = .markedLine) ∧
      c.line.body.ShownIn image.program.lexemes image.program.arena c.token b := by
  obtain ⟨hposition, hget⟩ := List.getElem?_eq_some_iff.1 hc
  have hlength : position < image.lines.toList.length := h.lines.length_eq ▸ hposition
  have hshown := (List.forall₂_iff_get.1 h.lines).2 position hposition hlength
  rw [List.get_eq_getElem, List.get_eq_getElem, hget] at hshown
  obtain ⟨b, hb, hi⟩ := hshown
  obtain ⟨n, hn, hlhs, htag⟩ := isLine_lhs hi
  refine ⟨_, b, n, ?_, hn, hlhs, htag, hb⟩
  rw [← Array.getElem?_toList, List.getElem?_eq_getElem hlength]

theorem lines_eq_none (h : image.Represents clauses) {position : Nat} (hc : clauses[position]? = none) :
    image.lines[position]? = none := by
  rw [List.getElem?_eq_none_iff, h.lines.length_eq] at hc
  rw [Array.getElem?_eq_none_iff]
  simpa using hc

theorem statementToken_eq {i b : NodeId} {n : Node} {s : PlainStmt} {t : TokenId}
    (hn : image.program.arena.Has i n) (hlhs : n.lhs = some b)
    (hb : s.ShownIn image.program.lexemes image.program.arena t b) :
    image.statementToken i = .ok (some t) := by
  obtain ⟨body, hbody, ht⟩ := hb.exists_token
  rw [statementToken, Program.node_eq hn.2]
  show (do
    let body ← image.program.node (← Program.reference n.lhs)
    return body.token : Except Fault (Option TokenId)) = _
  rw [hlhs]
  show (do
    let body ← image.program.node b
    return body.token : Except Fault (Option TokenId)) = _
  rw [Program.node_eq hbody.2, ← ht]
  rfl

/-- The evaluation of a line mirrors the effect of its statement. -/
theorem mirrors_line (h : image.Represents clauses) {i b : NodeId} {n : Node} {c : Clause} (hc : c ∈ clauses)
    (hn : image.program.arena.Has i n) (hlhs : n.lhs = some b) (htag : n.tag = .nakedLine ∨ n.tag = .markedLine)
    (hb : c.line.body.ShownIn image.program.lexemes image.program.arena c.token b) :
    Mirrors (image.evaluate maxFrames i) (c.line.body.exec (lastNumbered · clauses)) fun _ => Value.nothing := by
  have hnesting : c.line.body.nesting ≤ 64 := h.nesting c hc
  -- The line itself takes one frame, its statement two and each level of nesting six.
  rw [maxFrames, evaluate_line hn hlhs htag]
  exact hb.mirrors h.table (by omega)

/-- A step of the image is a step of the structural machine. -/
theorem step_eq (h : image.Represents clauses) (m : Machine) :
    image.step m.toState = ((m.step clauses).1, (m.step clauses).2.toState) := by
  rw [step, Machine.step]
  cases hc : clauses[m.position]? with
  | none =>
    rw [show m.toState.counter = m.position from rfl, h.lines_eq_none hc]
  | some c =>
    obtain ⟨i, b, n, hi, hn, hlhs, htag, hb⟩ := h.exists_line hc
    have hline : (image.evaluate maxFrames i).run ⟨m.toState.store, m.toState.stack, m.position + 1,
        m.toState.errors, m.toState.console, m.toState.generator⟩ = _ :=
      h.mirrors_line (List.mem_of_getElem? hc) hn hlhs htag hb { m with position := m.position + 1 }
    rw [show m.toState.counter = m.position from rfl, hi]
    dsimp only
    rw [statementToken_eq hn hlhs hb]
    dsimp only
    rw [hline]
    rcases c.line.body.exec (lastNumbered · clauses) { m with position := m.position + 1 } with ⟨e | u, m'⟩
    · cases e with
      | stopped r => rfl
      | aborted a => rfl
    · rfl

/-- Steps of the image are steps of the structural machine. -/
theorem stepsFrom_eq (h : image.Represents clauses) (done limit : Nat) (m : Machine) :
    image.stepsFrom done limit m.toState =
      ((m.stepsFrom clauses done limit).1, (m.stepsFrom clauses done limit).2.1,
        (m.stepsFrom clauses done limit).2.2.toState) := by
  induction limit generalizing done m with
  | zero => rfl
  | succ limit ih =>
    rw [stepsFrom, Machine.stepsFrom, h.step_eq]
    rcases m.step clauses with ⟨o, m'⟩
    cases o with
    | more => exact ih (done + 1) m'
    | finished => rfl
    | failed e => rfl
    | aborted a => rfl

end Image.Represents

end Steps

end LineBasic

import LineBasic.Proofs.Machine.Output
import LineBasic.Proofs.Program.Parts
import LineBasic.Proofs.Text.Decimal

/-!
# Answers to INPUT

INPUT takes lines from the input, one for each time that it asks, until it has a number for each of its variables, or
a line is too long, or no line is left. Lines that are neither numbers nor too long are complained about. What stands
behind the last line that it takes stays where it is.

## Main definitions

* `linesOf`: the lines of a text.
* `Answer`: what a line is to INPUT.
* `Answer.Ends`: how INPUT ends with the lines that it has taken.
* `State.answered`: the state behind some lines.

## Main results

* `Answer.of_eq_number_iff`: which lines are numbers.
* `Execution.forM_ask`: the variables of INPUT, one after another.
* `Program.input_takes_lines`: the INPUT statements of parsed programs.
-/

namespace LineBasic

/-! ### Lines -/

/-- The lines of a text, which is cut behind each line feed. -/
def linesOf : List Char → List (List Char)
  | [] => []
  | c :: cs =>
    if c = '\n' then [c] :: linesOf cs
    else
      match linesOf cs with
      | [] => [[c]]
      | line :: lines => (c :: line) :: lines

/-- Reading a line takes off the first one. -/
theorem linesOf_cons (c : Char) (cs : List Char) :
    linesOf (c :: cs) = firstLine (c :: cs) :: linesOf (afterFirstLine (c :: cs)) := by
  induction cs generalizing c with
  | nil =>
    rw [linesOf, firstLine, afterFirstLine]
    split
    · rfl
    · rfl
  | cons d ds ih =>
    rw [linesOf, firstLine, afterFirstLine]
    split
    · rfl
    · rw [ih d]

theorem flatten_linesOf (text : List Char) : (linesOf text).flatten = text := by
  induction text with
  | nil => rfl
  | cons c cs ih =>
    rw [linesOf]
    split
    · rw [List.flatten_cons, ih]
      rfl
    · split
      · rename_i hlines
        rw [hlines] at ih
        rw [← ih]
        rfl
      · rename_i line lines hlines
        rw [hlines] at ih
        rw [← ih]
        rfl

/-- The lines behind the first one are those of the text that is left when it is taken. -/
theorem linesOf_flatten_of_cons {text line : List Char} {lines : List (List Char)} (h : linesOf text = line :: lines) :
    linesOf lines.flatten = lines := by
  cases text with
  | nil => cases h
  | cons c cs =>
    rw [linesOf_cons] at h
    obtain ⟨-, rfl⟩ := List.cons.inj h
    rw [flatten_linesOf]

theorem linesOf_flatten_of_append {text : List Char} {taken rest : List (List Char)}
    (h : linesOf text = taken ++ rest) : linesOf rest.flatten = rest := by
  induction taken generalizing text with
  | nil =>
    rw [List.nil_append] at h
    rw [← h, flatten_linesOf]
  | cons line taken ih => exact ih (linesOf_flatten_of_cons h)

/-- A line has some text in front of the carriage returns and the line feeds at its end. -/
structure IsText (line text : List Char) : Prop where
  ending : ∃ ending, line = text ++ ending ∧ ∀ c ∈ ending, c = '\r' ∨ c = '\n'
  last : ∀ c ∈ text.getLast?, c ≠ '\r' ∧ c ≠ '\n'

theorem IsText.eq {line text : List Char} (h : IsText line text) : text = withoutLineEnd line := by
  obtain ⟨⟨ending, rfl, hending⟩, hlast⟩ := h
  rw [withoutLineEnd, dropTrailing, List.reverse_append,
    List.dropWhile_append_of_pos (by simpa using hending)]
  rcases List.eq_nil_or_concat text with rfl | ⟨front, c, rfl⟩
  · rfl
  · have hc : c ≠ '\r' ∧ c ≠ '\n' := hlast c (by rw [List.concat_eq_append, List.getLast?_concat]; rfl)
    rw [List.concat_eq_append, List.reverse_concat, List.dropWhile_cons_of_neg (by simpa using hc), List.reverse_cons,
      List.reverse_reverse]

/-! ### Numbers -/

/-- What a line of input is to INPUT. -/
inductive Answer where
  | overlong
  | number (n : Int)
  | rejected
  deriving DecidableEq, Repr

namespace Answer

/-- What a line is to INPUT, which looks at it without its line end. -/
def of (line : List Char) : Answer :=
  if maxAnswer < (withoutLineEnd line).length then .overlong
  else
    match parseAnswer (withoutLineEnd line) with
    | some n => .number n
    | none => .rejected

variable {line : List Char} {n : Int}

theorem of_eq_overlong_iff : of line = .overlong ↔ maxAnswer < (withoutLineEnd line).length := by
  rw [of]
  split
  · rename_i hlength
    exact ⟨fun _ => hlength, fun _ => rfl⟩
  · rename_i hlength
    refine ⟨fun h => ?_, fun h => absurd h hlength⟩
    split at h
    · cases h
    · cases h

theorem of_eq_number_iff : of line = .number n ↔
    (withoutLineEnd line).length ≤ maxAnswer ∧ Decimal.Denotes (withoutLineEnd line) n ∧ InRange n := by
  have hparse : parseAnswer (withoutLineEnd line) = some n ↔
      Decimal.Denotes (withoutLineEnd line) n ∧ InRange n := by
    rw [parseAnswer, Option.filter_eq_some_iff, Decimal.signed?_eq_some_iff, decide_eq_true_iff]
  rw [of]
  split
  · rename_i hlength
    exact iff_of_false Answer.noConfusion fun h => Nat.not_lt.2 h.1 hlength
  · rename_i hlength
    rw [← hparse, and_iff_right (Nat.le_of_not_lt hlength)]
    split
    · rename_i k hk
      rw [hk, number.injEq, Option.some.injEq]
    · rename_i hnone
      rw [hnone]
      exact iff_of_false Answer.noConfusion (Option.some_ne_none n).symm

/-- The complaint about a line, which is made only if the line is rejected. -/
def complaint (line : List Char) : String :=
  if of line = .rejected then Console.invalidAnswer (withoutLineEnd line) else ""

/-- What a line with some text is to INPUT, and what it has to say about it. -/
structure Rules (line text : List Char) : Prop where
  overlong : of line = .overlong ↔ maxAnswer < text.length
  number : ∀ n, of line = .number n ↔ text.length ≤ maxAnswer ∧ Decimal.Denotes text n ∧ InRange n
  complaint : complaint line = if of line = .rejected then "Invalid integer: " ++ String.ofList text ++ "\n" else ""

theorem rules_of_isText {text : List Char} (h : IsText line text) : Rules line text := by
  obtain rfl := h.eq
  exact ⟨of_eq_overlong_iff, fun _ => of_eq_number_iff, rfl⟩

/-- The number of an answer, if it is one. -/
def number? : Answer → Option Int
  | number n => some n
  | _ => none

/-- The numbers among some lines. -/
def numbers (lines : List (List Char)) : List Int := lines.filterMap fun line => (of line).number?

/-- The prompts for some answers. -/
def prompts (asked : Nat) : String := String.join (List.replicate asked "? ")

/-- How INPUT ends if it wants some numbers and takes some lines, and how often it asks. In all of these lines but the
last there is nothing to end for. -/
inductive Ends (readFails : Bool) (wanted : Nat) (taken rest : List (List Char)) : Nat → Except Halt Unit → Prop
  /-- The last line has the last number. -/
  | enough (hshort : ∀ line ∈ taken, of line ≠ .overlong) (hcount : (numbers taken).length = wanted)
      (hlast : ∀ line ∈ taken.getLast?, ((of line).number?).isSome) :
      Ends readFails wanted taken rest taken.length (.ok ())
  /-- The last line is too long. -/
  | overlong {front : List (List Char)} {line : List Char} (htaken : taken = front ++ [line])
      (hshort : ∀ line' ∈ front, of line' ≠ .overlong) (hlong : of line = .overlong)
      (hcount : (numbers taken).length < wanted) :
      Ends readFails wanted taken rest taken.length (.error (.stopped (.ioFailed .answerTooLong)))
  /-- There is no line left, but one more number is asked for. -/
  | exhausted (hrest : rest = []) (hshort : ∀ line ∈ taken, of line ≠ .overlong)
      (hcount : (numbers taken).length < wanted) :
      Ends readFails wanted taken rest (taken.length + 1)
        (.error (.stopped (.ioFailed (if readFails then .badRead else .endOfInput))))

variable {readFails : Bool} {wanted asked : Nat} {taken rest : List (List Char)} {r : Except Halt Unit}

theorem numbers_cons_number (hline : of line = .number n) (lines : List (List Char)) :
    numbers (line :: lines) = n :: numbers lines :=
  List.filterMap_cons_some (by rw [hline]; rfl)

theorem numbers_cons_of_number?_eq_none (hline : (of line).number? = none) (lines : List (List Char)) :
    numbers (line :: lines) = numbers lines :=
  List.filterMap_cons_none hline

theorem short_cons (hline : of line ≠ .overlong) (h : ∀ line' ∈ taken, of line' ≠ .overlong) :
    ∀ line' ∈ line :: taken, of line' ≠ .overlong :=
  List.forall_mem_cons.2 ⟨hline, h⟩

/-- A line that is rejected is taken in front of the others. -/
theorem Ends.cons_rejected (hline : of line = .rejected) (h : Ends readFails (wanted + 1) taken rest asked r) :
    Ends readFails (wanted + 1) (line :: taken) rest (asked + 1) r := by
  have hnumbers := numbers_cons_of_number?_eq_none (congrArg number? hline)
  have hshort' : of line ≠ .overlong := by rw [hline]; nofun
  cases h with
  | enough hshort hcount hlast =>
    refine .enough (short_cons hshort' hshort) (by rw [hnumbers, hcount]) ?_
    -- There is a number among the lines, so there is another line behind this one.
    cases taken with
    | nil => cases hcount
    | cons line' lines => exact hlast
  | overlong htaken hshort hlong hcount =>
    subst htaken
    exact .overlong (List.cons_append ..).symm (short_cons hshort' hshort) hlong (by rwa [hnumbers])
  | exhausted hrest hshort hcount => exact .exhausted hrest (short_cons hshort' hshort) (by rwa [hnumbers])

/-- A number is taken in front of the others. -/
theorem Ends.cons_number (hline : of line = .number n) (h : Ends readFails wanted taken rest asked r) :
    Ends readFails (wanted + 1) (line :: taken) rest (asked + 1) r := by
  have hnumbers := numbers_cons_number hline
  have hshort' : of line ≠ .overlong := by rw [hline]; nofun
  cases h with
  | enough hshort hcount hlast =>
    refine .enough (short_cons hshort' hshort) (by rw [hnumbers, List.length_cons, hcount]) ?_
    cases taken with
    | nil => simp [hline, number?]
    | cons line' lines => exact hlast
  | overlong htaken hshort hlong hcount =>
    subst htaken
    exact .overlong (List.cons_append ..).symm (short_cons hshort' hshort) hlong
      (by rw [hnumbers]; exact Nat.succ_lt_succ hcount)
  | exhausted hrest hshort hcount =>
    exact .exhausted hrest (short_cons hshort' hshort) (by rw [hnumbers]; exact Nat.succ_lt_succ hcount)

end Answer

/-! ### The state behind some lines -/

open Answer

/-- Variables set to numbers, one after another. -/
def Store.assigned (store : Store) : List (Letter × Int) → Store :=
  List.foldl (fun store (v, n) => store.set v (.number n) v.isLt) store

/-- No further write fails. -/
def Console.Writable (c : Console) : Prop := ∀ k ∈ c.failing, k < c.writes

/-- The console when some lines have been taken, and some are left. -/
def Console.answered (c : Console) (taken rest : List (List Char)) (asked : Nat) : Console :=
  { c with
    input := rest.flatten
    output := c.output ++ prompts asked
    diagnostics := c.diagnostics ++ String.join (taken.map complaint)
    writes := c.writes + asked }

/-- The state when some lines have been taken as answers for some variables. -/
def State.answered (s : State) (vs : List Letter) (taken rest : List (List Char)) (asked : Nat) : State :=
  { s with
    store := s.store.assigned (vs.zip (numbers taken))
    console := s.console.answered taken rest asked }

section Console

variable {c : Console} {line : List Char} {taken rest : List (List Char)} {asked : Nat}

theorem Console.Writable.wrote (h : c.Writable) (text : String) : (c.wrote text).Writable :=
  fun k hk => Nat.lt_succ_of_lt (h k hk)

theorem Console.Writable.write_eq (h : c.Writable) (text : String) : c.write text = (.ok (), c.wrote text) :=
  if_neg fun hmem => absurd (h _ hmem) (Nat.lt_irrefl _)

theorem Answer.prompts_succ (asked : Nat) : prompts (asked + 1) = "? " ++ prompts asked := by
  rw [prompts, List.replicate_succ, String.join_cons]
  rfl

/-- The console when one line has been taken. -/
def Console.took (c : Console) (line : List Char) (lines : List (List Char)) : Console :=
  { c.wrote "? " with input := lines.flatten, diagnostics := c.diagnostics ++ complaint line }

theorem Console.answered_nil (h : rest.flatten = c.input) : c.answered [] rest 0 = c := by
  simp [answered, prompts, h]

theorem Console.answered_asked (h : c.input = []) : c.answered [] [] 1 = c.wrote "? " := by
  simp [answered, prompts, wrote, h]

theorem Console.answered_cons (c : Console) (line : List Char) (lines taken rest : List (List Char)) (asked : Nat) :
    c.answered (line :: taken) rest (asked + 1) = (c.took line lines).answered taken rest asked := by
  simp only [answered, took, wrote, prompts_succ, List.map_cons, String.join_cons, String.append_assoc, Nat.add_assoc,
    Nat.add_comm 1]

theorem Console.answered_singleton (c : Console) (line : List Char) (lines : List (List Char)) :
    c.answered [line] lines 1 = c.took line lines := by
  rw [c.answered_cons line lines, answered_nil rfl]

theorem Console.took_of_ne (c : Console) (h : of line ≠ .rejected) (lines : List (List Char)) :
    c.took line lines = { c.wrote "? " with input := lines.flatten } := by
  rw [took, complaint, if_neg h, String.append_empty]
  rfl

theorem Console.took_of_rejected (c : Console) (h : of line = .rejected) (lines : List (List Char)) :
    c.took line lines =
      Console.complain (invalidAnswer (withoutLineEnd line)) { c.wrote "? " with input := lines.flatten } := by
  rw [took, complaint, if_pos h]
  rfl

/-- Reading a number takes the first line, and then other lines if that one is rejected. -/
theorem Console.Writable.readNumber_eq (h : c.Writable) : c.readNumber =
    match linesOf c.input with
    | [] => (.error (.stopped (.ioFailed (if c.readFails then .badRead else .endOfInput))), c.wrote "? ")
    | line :: lines =>
      match of line with
      | .overlong => (.error (.stopped (.ioFailed .answerTooLong)), c.took line lines)
      | .number n => (.ok n, c.took line lines)
      | .rejected => (c.took line lines).readNumber := by
  have hwrite := h.write_eq "? "
  -- Writes do not fail, so the prompt is put out and the first case does not arise.
  have hasked {u : Unit} {asked : Console} (hw : c.write "? " = (.ok u, asked)) : asked = c.wrote "? " :=
    congrArg Prod.snd (hw.symm.trans hwrite)
  fun_cases readNumber c with
  | case1 e asked hw =>
    rw [hwrite] at hw
    cases hw
  | case2 u asked hw hin =>
    obtain rfl := hasked hw
    rw [show c.input = [] from hin]
    rfl
  | case3 u asked hw ch cs hin answer answered hlen =>
    obtain rfl := hasked hw
    have hof : of (firstLine (ch :: cs)) = .overlong := of_eq_overlong_iff.2 hlen
    rw [show c.input = ch :: cs from hin, linesOf_cons]
    dsimp only
    rw [hof, c.took_of_ne (by rw [hof]; nofun), flatten_linesOf]
  | case4 u asked hw ch cs hin answer answered hlen n hparse =>
    obtain rfl := hasked hw
    have hof : of (firstLine (ch :: cs)) = .number n := by
      rw [of, if_neg hlen, hparse]
    rw [show c.input = ch :: cs from hin, linesOf_cons]
    dsimp only
    rw [hof, c.took_of_ne (by rw [hof]; nofun), flatten_linesOf]
  | case5 u asked hw ch cs hin answer answered hlen hparse =>
    obtain rfl := hasked hw
    have hof : of (firstLine (ch :: cs)) = .rejected := by
      rw [of, if_neg hlen, hparse]
    rw [show c.input = ch :: cs from hin, linesOf_cons]
    dsimp only
    rw [hof, c.took_of_rejected hof, flatten_linesOf]

end Console

/-! ### Reading numbers -/

/-- What INPUT does for one of its variables. -/
def Execution.ask (v : Letter) : Execution Unit := do
  assign v (.number (← onConsole Console.readNumber))

theorem Execution.forM_ask_cons (v : Letter) (vs : List Letter) (s : State) : (v :: vs).forM Execution.ask s =
    match s.console.readNumber with
    | (.ok n, c) => vs.forM Execution.ask { s with store := s.store.set v (.number n) v.isLt, console := c }
    | (.error h, c) => (.error h, { s with console := c }) := by
  show (ask v >>= fun _ => vs.forM ask) s = _
  rw [bind_apply, ask, bind_apply, Mirrors.onConsole_apply]
  rcases s.console.readNumber with ⟨h | n, c⟩
  · rfl
  · rfl

/-- The numbers for the variables of INPUT are read one after another. -/
theorem Execution.forM_ask (vs : List Letter) {s : State} (h : s.console.Writable) :
    ∃ taken rest asked r, linesOf s.console.input = taken ++ rest ∧
      Ends s.console.readFails vs.length taken rest asked r ∧
      (vs.forM Execution.ask) s = (r, s.answered vs taken rest asked) := by
  induction vs generalizing s with
  | nil =>
    refine ⟨[], linesOf s.console.input, 0, .ok (), rfl, .enough (List.forall_mem_nil _) rfl nofun, ?_⟩
    rw [State.answered, Console.answered_nil (flatten_linesOf _)]
    rfl
  | cons v vs ih =>
    -- One more variable takes one line or, as long as lines are rejected, several.
    generalize hlines : linesOf s.console.input = lines
    induction lines generalizing s with
    | nil =>
      have hinput : s.console.input = [] := by rw [← flatten_linesOf s.console.input, hlines]; rfl
      have hread := h.readNumber_eq
      rw [hlines] at hread
      refine ⟨[], [], 1, _, rfl, .exhausted rfl (List.forall_mem_nil _) (Nat.succ_pos _), ?_⟩
      rw [forM_ask_cons, hread, State.answered, Console.answered_asked hinput]
      rfl
    | cons line lines ihlines =>
      have hread := h.readNumber_eq
      rw [hlines] at hread
      dsimp only at hread
      cases hline : of line with
      | overlong =>
        rw [hline] at hread
        have hnumbers : numbers [line] = [] := numbers_cons_of_number?_eq_none (congrArg number? hline) []
        refine ⟨[line], lines, 1, _, rfl, .overlong (List.nil_append _).symm (List.forall_mem_nil _) hline
          (by rw [hnumbers]; exact Nat.succ_pos _), ?_⟩
        rw [forM_ask_cons, hread, State.answered, Console.answered_singleton, hnumbers]
        rfl
      | number n =>
        rw [hline] at hread
        let s' : State := { s with store := s.store.set v (.number n) v.isLt, console := s.console.took line lines }
        have hrest : linesOf s'.console.input = lines := linesOf_flatten_of_cons hlines
        obtain ⟨taken, rest, asked, r, htaken, hends, hrun⟩ := ih (s := s') (h.wrote "? ")
        refine ⟨line :: taken, rest, asked + 1, r, ?_, hends.cons_number hline, ?_⟩
        · rw [List.cons_append, ← htaken, hrest]
        · rw [forM_ask_cons, hread]
          show vs.forM ask s' = _
          rw [hrun, State.answered, State.answered, numbers_cons_number hline, s.console.answered_cons line lines]
          rfl
      | rejected =>
        rw [hline] at hread
        let s' : State := { s with console := s.console.took line lines }
        have hrest : linesOf s'.console.input = lines := linesOf_flatten_of_cons hlines
        obtain ⟨taken, rest, asked, r, htaken, hends, hrun⟩ := ihlines (s := s') (h.wrote "? ") hrest
        refine ⟨line :: taken, rest, asked + 1, r, ?_, hends.cons_rejected hline, ?_⟩
        · rw [List.cons_append, ← htaken]
        · -- The first variable asks again, on the console on which the line has been taken.
          have hsame : (v :: vs).forM ask s = (v :: vs).forM ask s' := by
            rw [forM_ask_cons, forM_ask_cons, hread]
          have hnumbers := numbers_cons_of_number?_eq_none (congrArg number? hline) taken
          rw [hsame, hrun, State.answered, State.answered, hnumbers, s.console.answered_cons line lines]

/-- The nodes of INPUT's variables ask for these variables. -/
theorem Image.forM_inputVariable {image : Image} {vs : List Letter} {js : List NodeId}
    (h : List.Forall₂ (Letter.ShownIn image.program.lexemes image.program.arena) vs js) :
    js.forM image.inputVariable = vs.forM Execution.ask := by
  induction h with
  | nil => rfl
  | @cons v j vs js hv _ ih =>
    show (image.inputVariable j >>= fun _ => js.forM image.inputVariable) = Execution.ask v >>= fun _ => _
    rw [ih, Image.inputVariable_eq hv]
    rfl

/-- In a parsed program, an INPUT statement with some variables comes to an end in every state in which writes do not
fail. It takes lines up to the one that has the last number, the first one that is too long, or the end of the input,
and leaves the others where they are. The numbers are the values of the variables in their order. It asks once for each
line, and once more if there is none left, and complains about the lines that are rejected. Nothing else changes. -/
theorem Program.input_takes_lines {source : List Char} {p : Program} (hp : Program.parse source = .ok p) :
    (∀ line text, IsText line text → Answer.Rules line text) ∧
      ∃ image, Image.ofProgram p = .ok image ∧ ∀ (i : NodeId) (n : Node), p.arena.nodes[i]? = some n →
        n.tag = .input → ∃ v more, List.Forall₂ (Letter.ShownIn p.lexemes p.arena) (v :: more) (p.arena.children n) ∧
          ∀ (frames : Nat) (s : State), s.console.Writable → ∃ taken rest asked r,
            linesOf s.console.input = taken ++ rest ∧
            Answer.Ends s.console.readFails (v :: more).length taken rest asked r ∧
            image.evaluate (frames + 1) i s = (r.map fun _ => .nothing, s.answered (v :: more) taken rest asked) := by
  refine ⟨fun line text => rules_of_isText, ?_⟩
  obtain ⟨clauses, image, hclauses, himage, rfl, -⟩ := Program.exists_image_of_parse hp
  refine ⟨image, himage, fun i n hn htag => ?_⟩
  have hpart := hclauses.part hn (by rw [htag]; nofun)
  obtain ⟨statement, t, hstatement⟩ := (hpart.of_tag hn).2 (by rw [htag]; rfl)
  -- Of all statements only INPUT has this tag.
  have hinput := (hstatement.tag_eq hn).symm.trans htag
  cases statement with
  | input mark v more =>
    obtain ⟨js, hjs, hi⟩ := hstatement
    obtain ⟨n', hn', -, -, -, hchildren⟩ := id hi
    obtain rfl := Option.some.inj (hn.symm.trans hn'.2)
    rw [hchildren]
    refine ⟨v, more, hjs, fun frames s hs => ?_⟩
    obtain ⟨taken, rest, asked, r, htaken, hends, hrun⟩ := Execution.forM_ask (v :: more) hs
    refine ⟨taken, rest, asked, r, htaken, hends, ?_⟩
    rw [Image.evaluate_input hi, Image.forM_inputVariable hjs, bind_apply, hrun]
    rcases r with h | u
    · rfl
    · rfl
  | _ => cases hinput

/-- A statement that names a variable twice. -/
def Program.askTwice : List Char := "INPUT A,B,A\n".toList

/-- Four lines for three variables, one of which is rejected, and the beginning of another line. -/
def Console.fourLines : Console := .ofInput "x\n+7\r\n-0012\n3\nleft".toList

theorem Program.input_takes_lines_twice : ∃ p image n v more, Program.parse askTwice = .ok p ∧
    Image.ofProgram p = .ok image ∧ p.arena.nodes[4]? = some n ∧ n.tag = .input ∧ Console.fourLines.Writable ∧
    ∃ taken asked, linesOf Console.fourLines.input = taken ++ ["left".toList] ∧
      Answer.Ends false (v :: more).length taken ["left".toList] asked (.ok ()) ∧
      image.evaluate 1 4 (.initial Console.fourLines 0) =
        (.ok .nothing, (State.initial Console.fourLines 0).answered (v :: more) taken ["left".toList] asked) := by
  have hrun : (Program.parse askTwice).toOption.any (fun p => (Image.ofProgram p).toOption.any fun image =>
      decide ((p.arena.nodes[4]?).map Node.tag = some .input) &&
        match image.evaluate 1 4 (State.initial Console.fourLines 0) with
        | (.ok .nothing, s) => decide (s.console.input = "left".toList)
        | _ => false) = true := by decide +kernel
  obtain ⟨p, hp, hrun⟩ := exists_ok_of_any hrun
  obtain ⟨image, himage, hrun⟩ := exists_ok_of_any hrun
  obtain ⟨htag, hrun⟩ := Bool.and_eq_true_iff.1 hrun
  obtain ⟨n, hn, htag⟩ := Option.map_eq_some_iff.1 (of_decide_eq_true htag)
  obtain ⟨-, image', himage', htakes⟩ := Program.input_takes_lines hp
  obtain rfl := Except.ok.inj (himage.symm.trans himage')
  obtain ⟨v, more, -, htakes⟩ := htakes 4 n hn htag
  have hwritable : Console.fourLines.Writable := List.forall_mem_nil _
  obtain ⟨taken, rest, asked, r, htaken, hends, hevaluate⟩ := htakes 0 (.initial Console.fourLines 0) hwritable
  rw [hevaluate] at hrun
  refine ⟨p, image, n, v, more, hp, himage, hn, htag, hwritable, taken, asked, ?_⟩
  rcases r with h | u
  · cases hrun
  · have hflatten : rest.flatten = "left".toList := of_decide_eq_true hrun
    have hrest : rest = ["left".toList] := by
      rw [← linesOf_flatten_of_append htaken, hflatten]
      decide
    subst hrest
    exact ⟨htaken, hends, hevaluate⟩

end LineBasic

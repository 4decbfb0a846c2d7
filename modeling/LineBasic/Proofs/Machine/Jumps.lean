import LineBasic.Proofs.Machine.Kinds
import LineBasic.Proofs.Machine.Subroutines
import LineBasic.Proofs.Program.Lines

/-!
# Jumps

GOTO and GOSUB go to the last line that has the number they want and holds a statement. The program counter counts
lines with a statement only, so lines without one shift nothing, and a number that only such lines have leads nowhere.

## Main definitions

* `Image.Targets`: the next step is a jump, and its target has a value.
* `Program.StandsFor`: a node is that of a source line.

## Main results

* `lastNumbered_append_cons`: the last clause with a number.
* `Image.Represents.exists_last`: where the last source line with a number stands.
* `Image.Represents.step_targets`: what a jump does.
* `Program.jump_resolves`: parsed programs.
-/

namespace LineBasic

open Arena SourceLine

/-- The next step arrives at a GOTO, or at a GOSUB that can save one more position, and its target has a value. The
second state is the one behind the evaluation of the target, in front of the jump. -/
inductive Image.Targets (image : Image) (s : State) (v : Value) (s' : State) : Prop
  | goto {statement : Node} {e : NodeId} {s₁ : State} (harrives : image.Arrives s statement s₁)
      (htag : statement.tag = .goto) (htarget : statement.lhs = some e)
      (hv : image.evaluate maxFrames e s₁ = (.ok v, s')) : Targets image s v s'
  | gosub {statement : Node} {e : NodeId} {s₁ : State} (harrives : image.Arrives s statement s₁)
      (htag : statement.tag = .gosub) (htarget : statement.lhs = some e) (hroom : s.stack.length < maxStack)
      (hv : image.evaluate maxFrames e { s₁ with stack := s₁.counter :: s₁.stack } = (.ok v, s')) : Targets image s v s'

/-- The node shows the plain line that the tokens of a source line spell. -/
def Program.StandsFor (p : Program) (i : NodeId) (line : SourceLine) : Prop :=
  ∃ c, line.Spells p c ∧ c.ShownIn p.lexemes p.arena i

/-! ### The last line with a number -/

section Lines

variable {n : Int} {c : Clause} {cs ds : List Clause}

theorem lastNumbered_eq_none_iff : lastNumbered n cs = none ↔ ∀ c ∈ cs, ¬∃ m ∈ c.line.number, (m.val : Int) = n := by
  induction cs with
  | nil => simp [lastNumbered]
  | cons c cs ih => simp [lastNumbered_cons, ih, and_comm]

/-- The last clause with a number hides all earlier ones. -/
theorem lastNumbered_append_cons (hc : ∃ m ∈ c.line.number, (m.val : Int) = n)
    (hds : ∀ d ∈ ds, ¬∃ m ∈ d.line.number, (m.val : Int) = n) :
    lastNumbered n (cs ++ c :: ds) = some cs.length := by
  induction cs with
  | nil =>
    rw [List.nil_append, lastNumbered_cons, lastNumbered_eq_none_iff.2 hds, if_pos hc]
    rfl
  | cons b cs ih =>
    rw [List.cons_append, lastNumbered_cons, ih]
    rfl

end Lines

section Jumps

variable {image : Image} {clauses : List Clause} {n : Int}

namespace Image.Represents

/-- The last source line with a number stands behind as many lines as hold a statement in front of it. -/
theorem exists_last (h : image.Represents clauses) (hmeans : image.program.Means clauses)
    {before after : List SourceLine} {line : SourceLine}
    (hlines : image.program.sourceLines = before ++ line :: after) (hline : line.NumberedBy image.program.source n)
    (hafter : ∀ l ∈ after, ¬l.NumberedBy image.program.source n) :
    lastNumbered n clauses = some (before.countP holdsStatement) ∧
      ∃ i, image.lines[before.countP holdsStatement]? = some i ∧ image.program.StandsFor i line := by
  have hspells := hmeans.spells
  rw [hlines, List.filter_append, List.filter_cons_of_pos hline.holdsStatement] at hspells
  obtain ⟨front, c, behind, rfl, hlength, ⟨hc, hwithin⟩, hbehind⟩ := exists_append_of_forall₂ hspells
  rw [← List.countP_eq_length_filter] at hlength
  constructor
  · rw [← hlength]
    refine lastNumbered_append_cons ((hc.numberedBy_iff hwithin n).1 hline) fun d hd hnumber => ?_
    obtain ⟨l, hl, hd, hwithin⟩ := exists_mem_of_forall₂ hbehind hd
    exact hafter l (List.mem_filter.1 hl).1 ((hd.numberedBy_iff hwithin n).2 hnumber)
  · obtain ⟨is, i, is', his, hposition, hi, -⟩ := exists_append_of_forall₂ h.lines.flip
    refine ⟨i, ?_, c, hc, hi⟩
    rw [← Array.getElem?_toList, his, ← hlength, ← hposition, List.getElem?_append_right (Nat.le_refl _), Nat.sub_self]
    rfl

/-- A number that no clause has is one that no source line with a statement has. -/
theorem lastNumbered_eq_none_iff (hmeans : image.program.Means clauses) :
    lastNumbered n clauses = none ↔ ∀ line ∈ image.program.sourceLines, ¬line.NumberedBy image.program.source n := by
  rw [LineBasic.lastNumbered_eq_none_iff]
  constructor
  · intro hclauses line hmem hline
    obtain ⟨c, hc, hspells, hwithin⟩ :=
      exists_mem_of_forall₂ hmeans.spells.flip (List.mem_filter.2 ⟨hmem, hline.holdsStatement⟩)
    exact hclauses c hc ((hspells.numberedBy_iff hwithin n).1 hline)
  · intro hlines c hc hnumber
    obtain ⟨line, hline, hspells, hwithin⟩ := exists_mem_of_forall₂ hmeans.spells hc
    exact hlines line (List.mem_filter.1 hline).1 ((hspells.numberedBy_iff hwithin n).2 hnumber)

/-- A step whose line does no more than to go somewhere. -/
theorem step_of_exec (h : image.Represents clauses) {m m' : Machine} {c : Clause} {w : Word}
    (hc : clauses[m.position]? = some c)
    (hexec : c.line.body.exec (lastNumbered · clauses) { m with position := m.position + 1 } =
      Run.jump (lastNumbered · clauses) w m') :
    image.step m.toState = match lastNumbered w.val clauses with
      | some k => (.more, { m'.toState with counter := k })
      | none => (.failed ⟨.missingLine w.toValue, c.token⟩,
          { m'.toState with errors := m'.errors ++ [⟨.missingLine w.toValue, c.token⟩] }) := by
  rw [h.step_eq, Machine.step, hc]
  dsimp only
  rw [hexec, Run.jump]
  cases lastNumbered w.val clauses with
  | none => rfl
  | some k => rfl

/-- The value of an expression in the tree is that of the plain expression. -/
theorem exists_value_of_evaluate {e : PlainExpr .sum} {j : NodeId} {m : Machine} {v : Value} {s : State}
    (he : e.WholeIn image.program.lexemes image.program.arena j) (hframes : 6 * e.nesting ≤ maxFrames)
    (hv : image.evaluate maxFrames j m.toState = (.ok v, s)) :
    ∃ w m', e.value m = (.ok w, m') ∧ v = w.toValue ∧ s = m'.toState := by
  have hmirrors := he.mirrors hframes m
  rw [hv] at hmirrors
  rcases hvalue : e.value m with ⟨halt | w, m'⟩
  · rw [hvalue] at hmirrors
    cases hmirrors
  · rw [hvalue] at hmirrors
    cases hmirrors
    exact ⟨w, m', rfl, rfl, rfl⟩

/-- A jump goes to the last clause that has the value of its target as its number, or fails. -/
theorem step_targets (h : image.Represents clauses) {m : Machine} {v : Value} {s' : State}
    (htargets : image.Targets m.toState v s') : ∃ n token, v = .number n ∧
      image.step m.toState = match lastNumbered n clauses with
        | some k => (.more, { s' with counter := k })
        | none => (.failed ⟨.missingLine (.number n), token⟩,
            { s' with errors := s'.errors ++ [⟨.missingLine (.number n), token⟩] }) := by
  cases htargets with
  | goto harrives htag htarget hv =>
    obtain ⟨c, s, m₁, t, j, hc, hreach, rfl, hs, hj, hframes⟩ := h.exists_reaches harrives
    have hgoto := (hs.tag_eq hj).symm.trans htag
    cases s with
    | goto mark e =>
      obtain ⟨i, he, hi⟩ := hs
      obtain rfl := Option.some.inj (hi.2.symm.trans hj)
      cases htarget
      obtain ⟨w, m', hvalue, rfl, rfl⟩ := exists_value_of_evaluate he hframes hv
      refine ⟨w.val, c.token, rfl, h.step_of_exec hc ?_⟩
      rw [hreach.exec_eq, Stmt.exec, bind_apply, hvalue]
    | _ => cases hgoto
  | gosub harrives htag htarget hroom hv =>
    obtain ⟨c, s, m₁, t, j, hc, hreach, rfl, hs, hj, hframes⟩ := h.exists_reaches harrives
    have hgosub := (hs.tag_eq hj).symm.trans htag
    cases s with
    | gosub mark e =>
      obtain ⟨i, he, hi⟩ := hs
      obtain rfl := Option.some.inj (hi.2.symm.trans hj)
      cases htarget
      -- The target is evaluated after the position has been saved.
      let pushed : Machine := { m₁ with stack := m₁.position :: m₁.stack }
      obtain ⟨w, m', hvalue, rfl, rfl⟩ := exists_value_of_evaluate (m := pushed) he hframes hv
      have hstack : m₁.stack = m.stack := (Prod.mk.inj hreach.control_eq).1
      refine ⟨w.val, c.token, rfl, h.step_of_exec hc ?_⟩
      rw [hreach.exec_eq, Stmt.exec, bind_apply, Run.save_apply, if_neg (hstack ▸ Nat.ne_of_lt hroom)]
      dsimp only
      rw [bind_apply, hvalue]
    | _ => cases hgosub

end Image.Represents

end Jumps

/-- In a parsed program, a jump whose target has a value goes to the last line that has this number and a statement,
if there is one. The counter is then the number of lines with a statement in front of it, and the node there is that of
the line. Otherwise, the number is missing. -/
theorem Program.jump_resolves {source : List Char} {p : Program} (hp : Program.parse source = .ok p) :
    ∃ image, Image.ofProgram p = .ok image ∧ ∀ console seed s, image.Reachable (State.initial console seed) s →
      ∀ v s', image.Targets s v s' → ∃ n, v = .number n ∧
        ((image.step s).1 = .more ↔ ∃ line ∈ p.sourceLines, line.NumberedBy source n) ∧
        (∀ before line after, p.sourceLines = before ++ line :: after → line.NumberedBy source n →
          (∀ l ∈ after, ¬l.NumberedBy source n) →
            image.step s = (.more, { s' with counter := before.countP holdsStatement }) ∧
            ∃ i, image.lines[before.countP holdsStatement]? = some i ∧ p.StandsFor i line) ∧
        ((∀ line ∈ p.sourceLines, ¬line.NumberedBy source n) →
          ∃ token, image.step s = (.failed ⟨.missingLine (.number n), token⟩,
            { s' with errors := s'.errors ++ [⟨.missingLine (.number n), token⟩] })) := by
  obtain ⟨clauses, image, hmeans, himage, rfl, h⟩ := Program.exists_image_of_parse hp
  obtain ⟨rfl, -⟩ := Program.parse_eq_ok_iff.1 hp
  refine ⟨image, himage, fun console seed s hs v s' htargets => ?_⟩
  rw [← Machine.toState_initial] at hs
  obtain ⟨m, rfl, -⟩ := h.exists_machine hs
  obtain ⟨n, token, rfl, hstep⟩ := h.step_targets htargets
  rw [hstep]
  refine ⟨n, rfl, ?_, fun before line after hlines hline hafter => ?_, fun hlines => ⟨token, ?_⟩⟩
  · cases hlast : lastNumbered n clauses with
    | none =>
      -- The numbers of the clauses are those of the lines of the text that hold a statement.
      have hnone := (Image.Represents.lastNumbered_eq_none_iff hmeans).1 hlast
      exact ⟨nofun, fun ⟨line, hmem, hline⟩ => absurd hline (hnone line hmem)⟩
    | some k =>
      refine ⟨fun _ => ?_, fun _ => rfl⟩
      by_contra hnone
      have hnumbered := (Image.Represents.lastNumbered_eq_none_iff hmeans).2 fun line hmem hline =>
        hnone ⟨line, hmem, hline⟩
      rw [hnumbered] at hlast
      cases hlast
  · obtain ⟨hlast, hline⟩ := h.exists_last hmeans hlines hline hafter
    rw [hlast]
    exact ⟨rfl, hline⟩
  · rw [(Image.Represents.lastNumbered_eq_none_iff hmeans).2 hlines]

/-- A program in which three lines with a statement stand in front of the last line that has the number ten and a
statement. -/
def Program.shadowed : List Char := "GOSUB 010\n10\n10 PRINT 1\n\n5 LET A=1\n0010 END\n10\n".toList

/-- The first line calls a subroutine, and the call has a target. -/
theorem Program.exists_image_shadowed : ∃ p image, Program.parse shadowed = .ok p ∧ Image.ofProgram p = .ok image ∧
    ∃ s', image.Targets (State.initial (Console.ofInput []) 0) (.number 10) s' ∧
    ∃ before line after, p.sourceLines = before ++ line :: after ∧ line.NumberedBy shadowed 10 ∧
      (∀ l ∈ after, ¬l.NumberedBy shadowed 10) ∧ before.countP holdsStatement = 3 := by
  let behind : State := { State.initial (Console.ofInput []) 0 with counter := 1, stack := [1] }
  have hrun : (Program.parse shadowed).toOption.any (fun p => (Image.ofProgram p).toOption.any fun image =>
      decide (image.lines[0]? = some 6 ∧ image.program.arena.nodes[6]? = some ⟨.nakedLine, none, some 5, none⟩ ∧
        image.program.arena.nodes[5]? = some ⟨.gosub, some 0, some 4, none⟩ ∧
        (image.evaluate maxFrames 4 behind).1 = .ok (.number 10) ∧
        ∃ line ∈ p.sourceLines[5]?, p.sourceLines = p.sourceLines.take 5 ++ line :: p.sourceLines.drop 6 ∧
          line.NumberedBy shadowed 10 ∧ (∀ l ∈ p.sourceLines.drop 6, ¬l.NumberedBy shadowed 10) ∧
          (p.sourceLines.take 5).countP holdsStatement = 3)) = true := by decide +kernel
  obtain ⟨p, hp, hrun⟩ := exists_ok_of_any hrun
  obtain ⟨image, himage, hrun⟩ := exists_ok_of_any hrun
  obtain ⟨hline, hnode, hbody, hvalue, line, -, hlines, hnumber, hafter, hcount⟩ := of_decide_eq_true hrun
  refine ⟨p, image, hp, himage, (image.evaluate maxFrames 4 behind).2, ?_, _, line, _, hlines, hnumber, hafter, hcount⟩
  exact .gosub ⟨6, _, 5, 5, hline, hnode, rfl, .here _ _ _, hbody⟩ rfl rfl (by decide) (Prod.ext hvalue rfl)

/-- The call goes to the last of the lines with the number ten that have a statement. -/
theorem Program.jump_resolves_shadowed : ∃ p image s', Program.parse Program.shadowed = .ok p ∧
    Image.ofProgram p = .ok image ∧ image.Targets (State.initial (Console.ofInput []) 0) (.number 10) s' ∧
    image.step (State.initial (Console.ofInput []) 0) = (.more, { s' with counter := 3 }) := by
  obtain ⟨p, image, hp, himage, s', htargets, before, line, after, hlines, hline, hafter, hcount⟩ :=
    Program.exists_image_shadowed
  obtain ⟨image', himage', hjump⟩ := Program.jump_resolves hp
  obtain rfl := Except.ok.inj (himage.symm.trans himage')
  obtain ⟨n, hn, -, hlast, -⟩ := hjump (Console.ofInput []) 0 _ .initial _ _ htargets
  cases hn
  obtain ⟨hstep, -⟩ := hlast before line after hlines hline hafter
  exact ⟨p, image, s', hp, himage, htargets, hcount ▸ hstep⟩

end LineBasic

import LineBasic.Proofs.Machine.Alike
import LineBasic.Proofs.Machine.Invariant

/-!
# Output that stands there already

What was put out before a program starts is no concern of the program: it runs as it does on a console with nothing
put out, and all that it puts out comes behind. If writes do not fail, a parsed program comes to an end, or to an error
of its own, or a draw never ends.

## Main definitions

* `Console.wrote`, `Console.wroteIf`: a console after a write that succeeds.
* `Console.Behind`: a console on which some text was put out before.

## Main results

* `Image.steps_like`: runs on consoles that are used alike.
* `Image.steps_behind`: runs on such a console.
* `Image.Represents.aborted_eq_noDraw`: what a run can be broken off by.
-/

namespace LineBasic

namespace Console

/-! ### Writes that succeed -/

/-- The console after a write. -/
def wrote (text : String) (c : Console) : Console := { c with writes := c.writes + 1, output := c.output ++ text }

/-- The console after a write that is made only if it is asked for. -/
def wroteIf (wanted : Bool) (text : String) (c : Console) : Console := if wanted then c.wrote text else c

variable (text : String) (wanted : Bool) (c : Console)

@[simp] theorem wrote_output : (c.wrote text).output = c.output ++ text := rfl

@[simp] theorem wrote_diagnostics : (c.wrote text).diagnostics = c.diagnostics := rfl

@[simp] theorem wrote_input : (c.wrote text).input = c.input := rfl

@[simp] theorem wrote_readFails : (c.wrote text).readFails = c.readFails := rfl

@[simp] theorem wrote_failing : (c.wrote text).failing = c.failing := rfl

@[simp] theorem wroteIf_output : (c.wroteIf wanted text).output = c.output ++ if wanted then text else "" := by
  cases wanted
  · exact String.append_empty.symm
  · rfl

@[simp] theorem wroteIf_diagnostics : (c.wroteIf wanted text).diagnostics = c.diagnostics := by cases wanted <;> rfl

@[simp] theorem wroteIf_input : (c.wroteIf wanted text).input = c.input := by cases wanted <;> rfl

@[simp] theorem wroteIf_readFails : (c.wroteIf wanted text).readFails = c.readFails := by cases wanted <;> rfl

@[simp] theorem wroteIf_failing : (c.wroteIf wanted text).failing = c.failing := by cases wanted <;> rfl

variable {c}

theorem write_eq (h : c.failing = []) (text : String) : c.write text = (.ok (), c.wrote text) := by
  rw [write, h, if_neg List.not_mem_nil, wrote, h]

/-! ### Text in front -/

/-- Two consoles that refuse no write, with the same to read: on the second one some text was put out in front of all
that was put out on the first one. -/
structure Behind (output diagnostics : String) (c d : Console) : Prop where
  left : c.failing = []
  right : d.failing = []
  input : d.input = c.input
  readFails : d.readFails = c.readFails
  output : d.output = output ++ c.output
  diagnostics : d.diagnostics = diagnostics ++ c.diagnostics

variable {output diagnostics : String} {d : Console}

/-- How writes would fail does not matter if none does. -/
theorem Behind.withFailure (h : c.failing = []) (e : WriteError) : Behind "" "" { c with failure := e } c :=
  ⟨h, h, rfl, rfl, String.empty_append.symm, String.empty_append.symm⟩

theorem UsedAlike.behind (output diagnostics : String) : UsedAlike (Behind output diagnostics) where
  input h := ⟨h.input, h.readFails⟩
  write text {c d} h := by
    rw [write_eq h.left, write_eq h.right]
    refine ⟨rfl, h.left, h.right, h.input, h.readFails, ?_, h.diagnostics⟩
    rw [wrote_output, wrote_output, h.output, String.append_assoc]
  read rest {c d} h := ⟨h.left, h.right, rfl, h.readFails, h.output, h.diagnostics⟩
  complain text {c d} h := by
    refine ⟨h.left, h.right, h.input, h.readFails, h.output, ?_⟩
    show d.diagnostics ++ text = diagnostics ++ (c.diagnostics ++ text)
    rw [h.diagnostics, String.append_assoc]

end Console

/-! ### Runs -/

section Runs

variable {image : Image} {output diagnostics : String} {c d : Console}

/-- Runs on consoles that are used alike end alike, in states that are the same but for the consoles. The errors of a
state are those of the run. -/
theorem Image.steps_like {C : Console → Console → Prop} (hC : Console.UsedAlike C) (image : Image) (limit : Nat)
    (seed : Int) (h : C c d) :
    (image.steps limit (.initial d seed)).2.1 = (image.steps limit (.initial c seed)).2.1 ∧
      State.Like C Eq (image.steps limit (.initial c seed)).2.1.recorded
        (image.steps limit (.initial c seed)).2.2 (image.steps limit (.initial d seed)).2.2 := by
  have hline : ∀ {errors s t} line, State.Like C Eq errors s t →
      (image.evaluate maxFrames line t).1 = (image.evaluate maxFrames line s).1 ∧
        State.Like C Eq errors (image.evaluate maxFrames line s).2 (image.evaluate maxFrames line t).2 := by
    intro errors s t line hst
    have halike : Execution.Alike (State.Like C Eq errors) (fun _ => False)
        (image.evaluate maxFrames line) (image.evaluate maxFrames line) :=
      evaluate_alike (State.keeps_like hC) (fun _ _ => Execution.Alike.draw) maxFrames line
    rcases halike s t hst with ⟨_, -, hpass⟩ | hsame
    · exact hpass.elim
    · exact hsame
  have hstart : State.Like C Eq [] (State.initial c seed) (State.initial d seed) :=
    ⟨rfl, rfl, rfl, rfl, rfl, h, rfl⟩
  obtain ⟨-, houtcome, hlike⟩ := stepsFrom_like (fun _ _ => True)
    (fun limit s t _ hst => step_like hst fun line _ => hline line (hst.withCounter _)) (fun _ _ _ _ _ => trivial)
    0 limit trivial hstart
  exact ⟨houtcome, hlike⟩

/-- The errors of a state are those of the run that has led to it. -/
theorem Image.errors_steps (image : Image) (limit : Nat) (c : Console) (seed : Int) :
    (image.steps limit (.initial c seed)).2.2.errors = (image.steps limit (.initial c seed)).2.1.recorded :=
  (image.steps_like .eq limit seed rfl).2.left

/-- A run on a console on which something was put out ends like one on the console without it, and so does the state
but for the console, which is behind by the same text. -/
theorem Image.steps_behind (image : Image) (limit : Nat) (seed : Int) (h : c.Behind output diagnostics d) :
    (image.steps limit (.initial d seed)).2.1 = (image.steps limit (.initial c seed)).2.1 ∧
      State.Like (Console.Behind output diagnostics) Eq (image.steps limit (.initial c seed)).2.1.recorded
        (image.steps limit (.initial c seed)).2.2 (image.steps limit (.initial d seed)).2.2 :=
  image.steps_like (.behind output diagnostics) limit seed h

/-- States that differ in their consoles only are the same on the same console. -/
theorem State.Like.withConsole_eq {C : Console → Console → Prop} {errors : List RuntimeError} {s t : State}
    (h : State.Like C Eq errors s t) (c : Console) : { t with console := c } = { s with console := c } := by
  obtain ⟨hstore, hstack, hcounter, hleft, hright, -, hgenerator⟩ := h
  rw [hstore, hstack, hcounter, hleft, hright, hgenerator]

/-- Steps that end in something else than success end in a state that was reached. -/
theorem Image.exists_step_of_stepsFrom {done limit : Nat} {s : State} {o : Outcome}
    (h : (image.stepsFrom done limit s).2.1 = o) (ho : o ≠ .more) :
    ∃ s', image.Reachable s s' ∧ (image.step s').1 = o := by
  induction limit generalizing done s with
  | zero => exact absurd h.symm ho
  | succ limit ih =>
    have hstep : image.Reachable s (image.step s).2 := .step .initial
    rw [stepsFrom] at h
    split at h
    · rename_i s' heq
      rw [heq] at hstep
      obtain ⟨s'', hreach, hs''⟩ := ih h
      exact ⟨s'', hstep.trans hreach, hs''⟩
    · rename_i heq
      exact ⟨s, .initial, by rw [heq]; exact h⟩

/-- If no write fails, a run is broken off by a draw that never ends only. -/
theorem Image.Represents.aborted_eq_noDraw {clauses : List Clause} (hrep : image.Represents clauses)
    (hc : c.failing = []) {limit : Nat} {seed : Int} {a : Abort}
    (h : (image.steps limit (.initial c seed)).2.1 = .aborted a) : a = .fault .noDraw := by
  -- Whether memory runs out is decided by writes that fail.
  have hfailure := (image.steps_behind limit seed (Console.Behind.withFailure hc .device)).1
  obtain ⟨s, hreach, hs⟩ := Image.exists_step_of_stepsFrom (hfailure.symm.trans h) nofun
  rw [← Machine.toState_initial] at hreach
  obtain ⟨m, rfl, hm⟩ := hrep.exists_machine hreach
  exact (hrep.safe (hm ▸ nofun)).aborted a hs

end Runs

end LineBasic

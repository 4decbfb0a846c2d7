import LineBasic.Machine.Evaluate

/-!
# Steps

A program runs line by line.

## Main definitions

* `Outcome`: how a step ends.
* `Image.step`: the execution of the next line.
* `Image.steps`: the execution of several lines.
-/

namespace LineBasic

/-- How a step ends. -/
inductive Outcome where
  /-- A line was executed. -/
  | more
  /-- There was no line left to execute. -/
  | finished
  /-- The line that was executed failed. -/
  | failed (e : RuntimeError)
  /-- The run cannot go on. -/
  | aborted (a : Abort)
  deriving DecidableEq, Repr

namespace Image

/-- Executes the line at the present position. The position moves on before the line is executed, so a jump
goes from there. An error is added to the errors of the state. -/
def step (image : Image) (s : State) : Outcome × State :=
  match image.lines[s.counter]? with
  | none => (.finished, s)
  | some line =>
    let begun := { s with counter := s.counter + 1 }
    match image.statementToken line with
    | .error f => (.aborted (.fault f), begun)
    | .ok token =>
      match (image.evaluate maxFrames line).run begun with
      | (.ok _, s) => (.more, s)
      | (.error (.stopped r), s) =>
        let e : RuntimeError := ⟨r, token⟩
        (.failed e, { s with errors := s.errors ++ [e] })
      | (.error (.aborted a), s) => (.aborted a, s)

/-- Executes lines as long as they succeed, up to `limit` of them; `done` have been executed before. Yields
how many have been executed in all, how the last step ended, and the state after it. -/
def stepsFrom (image : Image) (done : Nat) : (limit : Nat) → State → Nat × Outcome × State
  | 0, s => (done, .more, s)
  | limit + 1, s =>
    match image.step s with
    | (.more, s) => image.stepsFrom (done + 1) limit s
    | (outcome, s) => (done, outcome, s)

/-- Executes up to `limit` lines. -/
def steps (image : Image) (limit : Nat) (s : State) : Nat × Outcome × State :=
  image.stepsFrom 0 limit s

end Image

end LineBasic

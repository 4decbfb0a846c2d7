import LineBasic.Proofs.Machine.Steps

/-!
# Runs that are alike

Two computations are alike if they take states that are related to states that are related and yield the same. What a
program does can be compared in this way with what it does on another console, or with another generator: it depends
on them only through the texts that are read and the numbers that are drawn.

## Main definitions

* `Console.UsedAlike`: consoles on which programs do the same.
* `State.Like`: states that differ in console and generator only.
* `Execution.Alike`: two computations that are alike, unless the first one halts in some way.
* `Execution.Keeps`: a relation of states from which small steps are alike.
* `Image.isRandom`: the nodes that call for a random number.

## Main results

* `Execution.Alike.bind` and so on: sequences and small steps.
* `Execution.eq_of_alike`: computations that are alike in equal states are equal.
* `Image.evaluateWith_alike`: what nodes do is alike if what their parts do is.
* `Image.step_like`, `Image.stepsFrom_like`: steps of a program.
-/

namespace LineBasic

open Execution
open Program (reference)

/-! ### Consoles -/

/-- Consoles that are related have the same to read, the same writes fail on them, and what programs do to them relates
them again. -/
structure Console.UsedAlike (C : Console → Console → Prop) : Prop where
  input : ∀ {c d}, C c d → d.input = c.input ∧ d.readFails = c.readFails
  write : ∀ text {c d}, C c d → (d.write text).1 = (c.write text).1 ∧ C (c.write text).2 (d.write text).2
  read : ∀ rest {c d}, C c d → C { c with input := rest } { d with input := rest }
  complain : ∀ text {c d}, C c d → C (c.complain text) (d.complain text)

namespace Console.UsedAlike

variable {C : Console → Console → Prop} {c d : Console}

theorem eq : UsedAlike Eq := by
  constructor
  · rintro c _ rfl
    exact ⟨rfl, rfl⟩
  · rintro text c _ rfl
    exact ⟨rfl, rfl⟩
  · rintro rest c _ rfl
    rfl
  · rintro text c _ rfl
    rfl

theorem print (hC : UsedAlike C) (text : String) (h : C c d) :
    (d.print text).1 = (c.print text).1 ∧ C (c.print text).2 (d.print text).2 := by
  obtain ⟨hresult, hconsole⟩ := hC.write text h
  rw [Console.print, Console.print]
  generalize c.write text = result at hresult hconsole
  generalize d.write text = result' at hresult hconsole
  obtain ⟨r, c'⟩ := result
  obtain ⟨r', d'⟩ := result'
  obtain rfl : r' = r := hresult
  cases r' with
  | error e => exact ⟨rfl, hconsole⟩
  | ok u => exact ⟨rfl, hconsole⟩

/-- How a number is read. -/
theorem readNumber_eq (c : Console) : c.readNumber =
    match c.write "? " with
    | (.error e, asked) => (.error (.ofWriteError e), asked)
    | (.ok _, asked) =>
      match asked.input with
      | [] => (.error (.stopped (.ioFailed (if asked.readFails then .badRead else .endOfInput))), asked)
      | ch :: cs =>
        let answer := withoutLineEnd (firstLine (ch :: cs))
        let answered := { asked with input := afterFirstLine (ch :: cs) }
        if maxAnswer < answer.length then (.error (.stopped (.ioFailed .answerTooLong)), answered)
        else
          match parseAnswer answer with
          | some n => (.ok n, answered)
          | none => (answered.complain (invalidAnswer answer)).readNumber := by
  rw [Console.readNumber]
  split
  · rename_i e asked hw
    rw [hw]
  · rename_i u asked hw
    rw [hw]
    dsimp only
    split
    · rename_i hi
      rw [hi]
    · rename_i ch cs hi
      obtain ⟨input, _, _, _, _, _, _⟩ := asked
      obtain rfl : input = ch :: cs := hi
      rfl

/-- The same answers are read. -/
theorem readNumber (hC : UsedAlike C) (h : C c d) :
    d.readNumber.1 = c.readNumber.1 ∧ C c.readNumber.2 d.readNumber.2 := by
  -- Each question that is put again leaves less of the input.
  induction hlength : c.input.length using Nat.strongRecOn generalizing c d with
  | ind length ih =>
    obtain ⟨hresult, hasked⟩ := hC.write "? " h
    have hrest := Console.write_input "? " c
    rw [readNumber_eq c, readNumber_eq d]
    generalize c.write "? " = result at hresult hasked hrest
    generalize d.write "? " = result' at hresult hasked
    obtain ⟨r, asked⟩ := result
    obtain ⟨r', asked'⟩ := result'
    obtain rfl : r' = r := hresult
    obtain ⟨hinput, hreads⟩ := hC.input hasked
    cases r' with
    | error e => exact ⟨rfl, hasked⟩
    | ok u =>
      dsimp only at hinput hreads hrest ⊢
      rw [hinput]
      cases hcs : asked.input with
      | nil =>
        rw [hreads]
        exact ⟨rfl, hasked⟩
      | cons ch cs =>
        have hanswered := hC.read (afterFirstLine (ch :: cs)) hasked
        dsimp only
        split
        · exact ⟨rfl, hanswered⟩
        · cases parseAnswer (withoutLineEnd (firstLine (ch :: cs))) with
          | some n => exact ⟨rfl, hanswered⟩
          | none =>
            refine ih _ ?_ (hC.complain _ hanswered) rfl
            rw [← hlength, ← hrest, hcs]
            exact length_afterFirstLine_lt ch cs

end Console.UsedAlike

/-! ### States and computations -/

/-- States that differ in their consoles and their generators only, which are related, and that have some errors. -/
structure State.Like (C : Console → Console → Prop) (G : Generator → Generator → Prop) (errors : List RuntimeError)
    (s t : State) : Prop where
  store : t.store = s.store
  stack : t.stack = s.stack
  counter : t.counter = s.counter
  left : s.errors = errors
  right : t.errors = errors
  console : C s.console t.console
  generator : G s.generator t.generator

/-- Computations that lead from related states to related states and yield the same, unless the first one halts in
some way. -/
def Execution.Alike {α : Type} (R : State → State → Prop) (pass : Halt → Prop) (x y : Execution α) : Prop :=
  ∀ s t, R s t → (∃ h, (x s).1 = .error h ∧ pass h) ∨ ((y t).1 = (x s).1 ∧ R (x s).2 (y t).2)

namespace Execution.Alike

variable {α β : Type} {R : State → State → Prop} {pass : Halt → Prop} {x y : Execution α}

theorem pure (a : α) : Alike R pass (Pure.pure a) (Pure.pure a) := fun _ _ h => .inr ⟨rfl, h⟩

theorem throw (e : Halt) : Alike R pass (MonadExcept.throw e : Execution α) (MonadExcept.throw e) :=
  fun _ _ h => .inr ⟨rfl, h⟩

theorem stop (r : Reason) : Alike R pass (Execution.stop r : Execution α) (Execution.stop r) := throw _

theorem look (z : Except Fault α) : Alike R pass (Execution.look z) (Execution.look z) := by
  cases z with
  | error f => exact throw _
  | ok a => exact pure a

theorem require (z : Except Reason α) : Alike R pass (Execution.require z) (Execution.require z) := by
  cases z with
  | error r => exact stop r
  | ok a => exact pure a

theorem bind {f g : α → Execution β} (h : Alike R pass x y) (hf : ∀ a, Alike R pass (f a) (g a)) :
    Alike R pass (x >>= f) (y >>= g) := by
  intro s t hst
  rw [bind_apply, bind_apply]
  rcases h s t hst with ⟨e, he, hpass⟩ | ⟨hresult, hrelated⟩
  · refine .inl ⟨e, ?_, hpass⟩
    generalize x s = result at he
    obtain ⟨r, s'⟩ := result
    obtain rfl : r = .error e := he
    rfl
  · generalize x s = result at hresult hrelated
    generalize y t = result' at hresult hrelated
    obtain ⟨r, s'⟩ := result
    obtain ⟨r', t'⟩ := result'
    obtain rfl : r' = r := hresult
    cases r' with
    | error e => exact .inr ⟨rfl, hrelated⟩
    | ok a => exact hf a s' t' hrelated

theorem mapM {f g : β → Execution α} {bs : List β} (h : ∀ b ∈ bs, Alike R pass (f b) (g b)) :
    Alike R pass (bs.mapM f) (bs.mapM g) := by
  induction bs with
  | nil => exact pure []
  | cons b bs ih =>
    obtain ⟨hb, hbs⟩ := List.forall_mem_cons.1 h
    rw [List.mapM_cons, List.mapM_cons]
    exact hb.bind fun a => (ih hbs).bind fun as => pure (a :: as)

theorem foldlM {f g : α → β → Execution α} {bs : List β} (h : ∀ b ∈ bs, ∀ a, Alike R pass (f a b) (g a b)) (a : α) :
    Alike R pass (bs.foldlM f a) (bs.foldlM g a) := by
  induction bs generalizing a with
  | nil => exact pure a
  | cons b bs ih =>
    obtain ⟨hb, hbs⟩ := List.forall_mem_cons.1 h
    rw [List.foldlM_cons, List.foldlM_cons]
    exact (hb a).bind (ih hbs)

theorem forM {f g : β → Execution Unit} (bs : List β) (h : ∀ b, Alike R pass (f b) (g b)) :
    Alike R pass (bs.forM f) (bs.forM g) := by
  induction bs with
  | nil => exact pure ()
  | cons b bs ih => exact (h b).bind fun _ => ih

theorem modify {f : State → State} (h : ∀ s t, R s t → R (f s) (f t)) :
    Alike R pass (modify f : Execution Unit) (modify f) := fun s t hst => .inr ⟨rfl, h s t hst⟩

end Execution.Alike

namespace Execution

variable {α : Type} {x y : Execution α}

theorem Alike.refl {pass : Halt → Prop} (x : Execution α) : Alike Eq pass x x := by
  rintro s _ rfl
  exact .inr ⟨rfl, rfl⟩

/-- Computations that are alike in every state by itself are the same. -/
theorem eq_of_alike (h : Alike Eq (fun _ => False) x y) : x = y := by
  refine funext fun s => ?_
  rcases h s s rfl with ⟨_, _, hpass⟩ | ⟨hresult, hstate⟩
  · exact hpass.elim
  · exact Prod.ext hresult.symm hstate

/-- The small steps of evaluation, but for draws, are alike from related states. -/
structure Keeps (R : State → State → Prop) (pass : Halt → Prop) : Prop where
  load : ∀ l, Alike R pass (load l) (load l)
  assign : ∀ l v, Alike R pass (assign l v) (assign l v)
  goTo : ∀ position, Alike R pass (goTo position) (goTo position)
  save : Alike R pass save save
  restore : Alike R pass restore restore
  print : ∀ text, Alike R pass (onConsole (Console.print text)) (onConsole (Console.print text))
  readNumber : Alike R pass (onConsole Console.readNumber) (onConsole Console.readNumber)

theorem keeps_eq (pass : Halt → Prop) : Keeps Eq pass :=
  ⟨fun _ => .refl _, fun _ _ => .refl _, fun _ => .refl _, .refl _, .refl _, fun _ => .refl _, .refl _⟩

end Execution

/-! ### Small steps -/

section Steps

variable {C : Console → Console → Prop} {G : Generator → Generator → Prop} {errors : List RuntimeError}
  {pass : Halt → Prop} {s t : State}

theorem State.Like.withStore (h : State.Like C G errors s t) (v : Store) :
    State.Like C G errors { s with store := v } { t with store := v } :=
  ⟨rfl, h.stack, h.counter, h.left, h.right, h.console, h.generator⟩

theorem State.Like.withStack (h : State.Like C G errors s t) (stack : List Nat) :
    State.Like C G errors { s with stack := stack } { t with stack := stack } :=
  ⟨h.store, rfl, h.counter, h.left, h.right, h.console, h.generator⟩

theorem State.Like.withCounter (h : State.Like C G errors s t) (counter : Nat) :
    State.Like C G errors { s with counter := counter } { t with counter := counter } :=
  ⟨h.store, h.stack, rfl, h.left, h.right, h.console, h.generator⟩

theorem State.Like.withConsole (h : State.Like C G errors s t) {c d : Console} (hconsole : C c d) :
    State.Like C G errors { s with console := c } { t with console := d } :=
  ⟨h.store, h.stack, h.counter, h.left, h.right, hconsole, h.generator⟩

theorem State.Like.withGenerator (h : State.Like C G errors s t) {g g' : Generator} (hgenerator : G g g') :
    State.Like C G errors { s with generator := g } { t with generator := g' } :=
  ⟨h.store, h.stack, h.counter, h.left, h.right, h.console, hgenerator⟩

theorem State.Like.withError (h : State.Like C G errors s t) (e : RuntimeError) :
    State.Like C G (errors ++ [e]) { s with errors := s.errors ++ [e] } { t with errors := t.errors ++ [e] } :=
  ⟨h.store, h.stack, h.counter, congrArg (· ++ [e]) h.left, congrArg (· ++ [e]) h.right, h.console, h.generator⟩

namespace Execution.Alike

theorem load (l : Letter) : Alike (State.Like C G errors) pass (load l) (load l) :=
  fun _ _ h => .inr ⟨congrArg (fun store : Store => Except.ok (store.get l)) h.store, h⟩

theorem assign (l : Letter) (v : Value) : Alike (State.Like C G errors) pass (assign l v) (assign l v) := by
  refine modify fun s t h => ?_
  rw [h.store]
  exact h.withStore _

theorem goTo (position : Nat) : Alike (State.Like C G errors) pass (goTo position) (goTo position) :=
  modify fun _ _ h => h.withCounter position

theorem save : Alike (State.Like C G errors) pass save save := by
  intro s t h
  rw [Execution.save, Mirrors.get_bind_apply, Mirrors.get_bind_apply, h.stack]
  by_cases hfull : s.stack.length = maxStack
  · rw [if_pos hfull]
    exact .inr ⟨rfl, h⟩
  · rw [if_neg hfull]
    have hpushed : t.counter :: t.stack = s.counter :: s.stack := by rw [h.counter, h.stack]
    exact .inr ⟨rfl, h.store, hpushed, h.counter, h.left, h.right, h.console, h.generator⟩

theorem restore : Alike (State.Like C G errors) pass restore restore := by
  intro s t h
  rw [Execution.restore, Mirrors.get_bind_apply, Mirrors.get_bind_apply, h.stack]
  cases s.stack with
  | nil => exact .inr ⟨rfl, h⟩
  | cons position stack => exact .inr ⟨rfl, (h.withStack stack).withCounter position⟩

theorem onConsole {α : Type} {f : Console → Except Halt α × Console}
    (hf : ∀ {c d}, C c d → (f d).1 = (f c).1 ∧ C (f c).2 (f d).2) :
    Alike (State.Like C G errors) pass (onConsole f) (onConsole f) := by
  intro s t h
  obtain ⟨hresult, hconsole⟩ := hf h.console
  exact .inr ⟨hresult, h.withConsole hconsole⟩

/-- The same numbers are drawn from the same generator. -/
theorem draw (limit : Nat) : Alike (State.Like C Eq errors) pass (draw limit) (draw limit) := by
  intro s t h
  have hgenerator : s.generator = t.generator := h.generator
  rw [Mirrors.draw_apply, Mirrors.draw_apply, ← hgenerator]
  rcases s.generator.below limit with ⟨_ | n, g⟩
  · exact .inr ⟨rfl, h.withGenerator rfl⟩
  · exact .inr ⟨rfl, h.withGenerator rfl⟩

end Execution.Alike

theorem State.keeps_like (hC : Console.UsedAlike C) : Keeps (State.Like C G errors) pass where
  load := .load
  assign := .assign
  goTo := .goTo
  save := .save
  restore := .restore
  print text := .onConsole fun h => hC.print text h
  readNumber := .onConsole hC.readNumber

end Steps

/-! ### Nodes -/

/-- The node calls for a random number. -/
def Image.isRandom (image : Image) (i : NodeId) : Bool :=
  match image.program.node i with
  | .ok n => n.tag = .call && ((reference n.token >>= image.program.token).toOption.any (·.tag = .builtin .rnd))
  | .error _ => false

section Nodes

variable {R : State → State → Prop} {pass : Halt → Prop} {image : Image}

theorem Execution.Keeps.jump (hR : Keeps R pass) (v : Value) : Alike R pass (image.jump v) (image.jump v) := by
  rw [Image.jump]
  split
  · exact hR.goTo _
  · exact .stop _

theorem Execution.Alike.applyFunction (tag : Tag) (arguments : List Value)
    (hdraw : tag = .builtin .rnd → ∀ limit, Alike R pass (Execution.draw limit) (Execution.draw limit)) :
    Alike R pass (applyFunction tag arguments) (applyFunction tag arguments) := by
  unfold LineBasic.applyFunction
  split
  · exact .bind (.look _) fun _ => .require _
  · exact .bind (.look _) fun _ => hdraw rfl _
  · exact .stop _
  · exact .bind (.look _) fun _ => .bind (.look _) fun _ => .require _
  · exact .stop _

/-- A reference is followed. -/
theorem Execution.Alike.follow {α : Type} {operand operand' : NodeId → Execution α}
    {j? : Option NodeId} (h : ∀ j ∈ j?, Alike R pass (operand j) (operand' j)) :
    Alike R pass (Execution.look (reference j?) >>= operand) (Execution.look (reference j?) >>= operand') := by
  cases j? with
  | none => exact .throw _
  | some j => exact h j rfl

theorem Execution.Alike.itemText {item item' : NodeId → Execution Value} {j : NodeId}
    (h : Alike R pass (item j) (item' j)) : Alike R pass (image.itemText item j) (image.itemText item' j) := by
  refine .bind (.look _) fun n => ?_
  split
  · exact .bind (.look _) fun _ => .pure _
  · exact .bind h fun _ => .pure _

/-- The nodes to which a node refers do what is alike. -/
def Image.AlikeBelow (image : Image) (R : State → State → Prop) (pass : Halt → Prop) (i : NodeId)
    (f g : NodeId → Execution Value) : Prop :=
  ∀ n, image.program.node i = .ok n → ∀ j ∈ image.program.arena.references n, Alike R pass (f j) (g j)

/-- What a node does is alike if what its parts do is, and what random numbers do. -/
theorem Image.evaluateWith_alike (hR : Keeps R pass)
    {operand operand' item item' argument argument' : NodeId → Execution Value} {i : NodeId}
    (ho : image.AlikeBelow R pass i operand operand') (hi : image.AlikeBelow R pass i item item')
    (ha : image.AlikeBelow R pass i argument argument')
    (hdraw : image.isRandom i → ∀ limit, Alike R pass (draw limit) (draw limit)) :
    Alike R pass (image.evaluateWith operand item argument i)
      (image.evaluateWith operand' item' argument' i) := by
  -- Both sides look up the same node, so they take the same case and differ only in what its parts do.
  cases hn : image.program.node i with
  | error f =>
    rw [evaluateWith, evaluateWith, hn]
    exact .throw _
  | ok n =>
    replace ho := ho n hn
    replace hi := hi n hn
    replace ha := ha n hn
    rw [evaluateWith, evaluateWith, hn, look_ok, pure_bind, pure_bind]
    obtain ⟨tag, token, lhs, rhs⟩ := n
    cases tag with
    | number => exact .bind (.look _) fun _ => .pure _
    | var => exact .bind (.look _) fun _ => hR.load _
    | nakedLine | markedLine | factor _ => exact .follow fun j hj => ho j (Arena.mem_references_lhs rfl hj)
    | term s =>
      refine .bind (.foldlM (fun j hj product => ?_) _) fun _ => .pure _
      refine .bind (ho j (Arena.mem_references_children rfl hj)) fun _ => ?_
      exact .bind (.look _) fun _ => .bind (.look _) fun _ => .require _
    | expression =>
      refine .bind (.foldlM (fun j hj total => ?_) _) fun _ => .pure _
      refine .bind (ho j (Arena.mem_references_children rfl hj)) fun _ => ?_
      exact .bind (.look _) fun _ => .bind (.look _) fun _ => .require _
    | predicate =>
      refine .follow fun j hj => .bind (ho j (Arena.mem_references_lhs rfl hj)) fun a => ?_
      refine .follow fun k hk => .bind (ho k (Arena.mem_references_rhs rfl hk)) fun b => ?_
      exact .bind (.look _) fun operator => .bind (.look _) fun _ => .pure _
    | call =>
      dsimp only
      cases hfunction : reference token >>= image.program.token with
      | error f => exact .throw _
      | ok function =>
        rw [look_ok, pure_bind, pure_bind]
        refine .bind (.mapM fun j hj => ha j (Arena.mem_references_children rfl hj)) fun arguments => ?_
        -- Only RND draws, and a call of it makes the node random.
        refine .bind (.applyFunction _ _ fun htag => hdraw ?_) fun _ => .pure _
        rw [isRandom, hn]
        dsimp only
        rw [hfunction, Except.toOption, Option.any, htag]
        rfl
    | print =>
      refine .bind (.mapM fun j hj => .itemText (hi j (Arena.mem_references_children rfl hj))) fun items => ?_
      exact .bind (hR.print _) fun _ => .pure _
    | input =>
      refine .bind (.forM _ fun j => ?_) fun _ => .pure _
      refine .bind (.look _) fun n => .bind (.look _) fun l => ?_
      exact .bind hR.readNumber fun v => hR.assign _ _
    | assign =>
      refine .follow fun j hj => .bind (ho j (Arena.mem_references_rhs rfl hj)) fun v => ?_
      exact .bind (.look _) fun l => .bind (hR.assign _ _) fun _ => .pure _
    | branch =>
      refine .follow fun j hj => .bind (ho j (Arena.mem_references_lhs rfl hj)) fun condition => ?_
      split
      · exact .follow fun k hk => .bind (ho k (Arena.mem_references_rhs rfl hk)) fun _ => .pure _
      · exact .pure _
    | goto =>
      refine .follow fun j hj => .bind (ho j (Arena.mem_references_lhs rfl hj)) fun v => ?_
      exact .bind (hR.jump v) fun _ => .pure _
    | gosub =>
      refine .bind hR.save fun _ => ?_
      refine .follow fun j hj => .bind (ho j (Arena.mem_references_lhs rfl hj)) fun v => ?_
      exact .bind (hR.jump v) fun _ => .pure _
    | action a =>
      cases a with
      | ret => exact .bind hR.restore fun _ => .pure _
      | halt => exact .bind (hR.goTo _) fun _ => .pure _
      | clear | list | run => exact .stop _
    | root | string => exact .stop _

/-- What a program does to related states is alike, if this is so for the random numbers that it calls for. -/
theorem Image.evaluate_alike (hR : Keeps R pass)
    (hdraw : ∀ i, image.isRandom i → ∀ limit, Alike R pass (draw limit) (draw limit)) (frames : Nat) (i : NodeId) :
    Alike R pass (image.evaluate frames i) (image.evaluate frames i) := by
  induction frames using Nat.strongRecOn generalizing i with
  | ind frames ih =>
    cases frames with
    | zero => exact .throw _
    | succ frames =>
      rw [evaluate_succ]
      exact evaluateWith_alike hR (fun _ _ j _ => ih frames (Nat.lt_succ_self _) j)
        (fun _ _ j _ => ih (frames - 1) (by omega) j) (fun _ _ j _ => ih (frames - 2) (by omega) j) (hdraw i)

end Nodes

/-! ### Steps of a program -/

/-- The errors that an outcome adds to those of the state. -/
def Outcome.recorded : Outcome → List RuntimeError
  | .failed e => [e]
  | .more | .finished | .aborted _ => []

section Steps

variable {C : Console → Console → Prop} {G : Generator → Generator → Prop} {errors : List RuntimeError}
  {image : Image} {s t : State}

/-- Steps from related states have the same outcome and lead to related states, if this is so for their lines. -/
theorem Image.step_like (h : State.Like C G errors s t)
    (hline : ∀ line, image.lines[s.counter]? = some line →
      (image.evaluate maxFrames line { t with counter := s.counter + 1 }).1 =
          (image.evaluate maxFrames line { s with counter := s.counter + 1 }).1 ∧
        State.Like C G errors (image.evaluate maxFrames line { s with counter := s.counter + 1 }).2
          (image.evaluate maxFrames line { t with counter := s.counter + 1 }).2) :
    (image.step t).1 = (image.step s).1 ∧
      State.Like C G (errors ++ (image.step s).1.recorded) (image.step s).2 (image.step t).2 := by
  have hnone : errors ++ [] = errors := List.append_nil errors
  rw [step, step, h.counter]
  cases hlines : image.lines[s.counter]? with
  | none => exact ⟨rfl, hnone.symm ▸ h⟩
  | some line =>
    obtain ⟨hresult, hlike⟩ := hline line hlines
    have hbegun := h.withCounter (s.counter + 1)
    dsimp only
    cases image.statementToken line with
    | error f => exact ⟨rfl, hnone.symm ▸ hbegun⟩
    | ok token =>
      dsimp only [ExceptT.run]
      generalize image.evaluate maxFrames line { s with counter := s.counter + 1 } = result at hresult hlike
      generalize image.evaluate maxFrames line { t with counter := s.counter + 1 } = result' at hresult hlike
      obtain ⟨r, s'⟩ := result
      obtain ⟨r', t'⟩ := result'
      obtain rfl : r' = r := hresult
      -- Only a program's own error is recorded.
      rcases r' with (reason | a) | v
      · exact ⟨rfl, hlike.withError _⟩
      · exact ⟨rfl, hnone.symm ▸ hlike⟩
      · exact ⟨rfl, hnone.symm ▸ hlike⟩

/-- Several steps from related states end alike, as long as each of them is alike. -/
theorem Image.stepsFrom_like (good : Nat → State → Prop)
    (hstep : ∀ limit s t, good (limit + 1) s → State.Like C G errors s t → (image.step t).1 = (image.step s).1 ∧
      State.Like C G (errors ++ (image.step s).1.recorded) (image.step s).2 (image.step t).2)
    (hgood : ∀ limit s s', good (limit + 1) s → image.step s = (.more, s') → good limit s')
    (done limit : Nat) (hs : good limit s) (h : State.Like C G errors s t) :
    (image.stepsFrom done limit t).1 = (image.stepsFrom done limit s).1 ∧
      (image.stepsFrom done limit t).2.1 = (image.stepsFrom done limit s).2.1 ∧
      State.Like C G (errors ++ (image.stepsFrom done limit s).2.1.recorded) (image.stepsFrom done limit s).2.2
        (image.stepsFrom done limit t).2.2 := by
  induction limit generalizing done s t with
  | zero => exact ⟨rfl, rfl, (List.append_nil errors).symm ▸ h⟩
  | succ limit ih =>
    obtain ⟨houtcome, hlike⟩ := hstep limit s t hs h
    have hnext := hgood limit s
    rw [stepsFrom, stepsFrom]
    generalize image.step s = result at houtcome hlike hnext
    generalize image.step t = result' at houtcome hlike
    obtain ⟨o, s'⟩ := result
    obtain ⟨o', t'⟩ := result'
    obtain rfl : o' = o := houtcome
    cases o' with
    -- Nothing is recorded by a step behind which there is another one.
    | more => exact ih (done + 1) (hnext s' hs rfl) (List.append_nil errors ▸ hlike)
    | finished => exact ⟨rfl, rfl, hlike⟩
    | failed e => exact ⟨rfl, rfl, hlike⟩
    | aborted a => exact ⟨rfl, rfl, hlike⟩

end Steps

end LineBasic

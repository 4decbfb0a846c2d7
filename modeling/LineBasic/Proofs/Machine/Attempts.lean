import LineBasic.Proofs.Machine.Exact
import LineBasic.Proofs.Machine.Output

/-!
# Writes that are tried

PRINT tries to write its line and INPUT its prompts, and nothing else is written by a program. A write that is refused
puts out nothing and ends the run, so it is the last one that the program tries, and the only one of its writes that is
refused.

## Main definitions

* `Stmt.attempts`, `Machine.attempts`: the texts that a statement and a run try to write.
* `passed`: what writes put out of which some are refused.
* `Console.asks`, `Console.prompting`: how often a number is asked for, and the prompts for some numbers.
* `Console.Tried`: a console behind some writes.
* `Console.Ends`: no write is refused, or the last one.
* `Machine.Writes`: what is written on the way from a machine to another one.
* `Halt.Own`, `Outcome.Own`, `Outcome.Refused`: ends that have nothing to do with writes, and the one of a run of which
  a write is refused.

## Main results

* `Stmt.attempts_exec`: statements.
* `Machine.writes_stepsFrom`, `Image.Represents.writes_steps`: runs.
-/

namespace LineBasic

/-! ### Consoles behind writes -/

/-- A way to halt that has nothing to do with writes. -/
def Halt.Own : Halt → Prop
  | .stopped (.ioFailed (.write _)) => False
  | .stopped _ => True
  | .aborted _ => False

/-- What is put out by writes of some texts, the first of which has a given number: the texts of those whose numbers are
not among the failing ones. -/
def passed (failing : List Nat) : (number : Nat) → List String → String
  | _, [] => ""
  | number, text :: texts => (if number ∈ failing then "" else text) ++ passed failing (number + 1) texts

theorem passed_append (failing : List Nat) (number : Nat) (texts more : List String) :
    passed failing number (texts ++ more) =
      passed failing number texts ++ passed failing (number + texts.length) more := by
  induction texts generalizing number with
  | nil => exact String.empty_append.symm
  | cons text texts ih =>
    rw [List.cons_append, passed, passed, ih, String.append_assoc, List.length_cons, Nat.add_assoc, Nat.add_comm 1]

namespace Console

/-- The console behind some writes. Something may have been read in between. -/
structure Tried (c : Console) (texts : List String) (c' : Console) : Prop where
  writes : c'.writes = c.writes + texts.length
  output : c'.output = c.output ++ passed c.failing c.writes texts
  failing : c'.failing = c.failing
  failure : c'.failure = c.failure

/-- None of so many writes to come is refused. -/
def Accepts (c : Console) (n : Nat) : Prop := ∀ i < n, c.writes + i ∉ c.failing

/-- How something ends that tries to write some texts. Either no write is refused and it ends in one way, or the last
write is refused and it ends in another way. -/
inductive Ends (c : Console) (own refused : Prop) : List String → Prop
  | accepted {texts : List String} (h : c.Accepts texts.length) (hend : own) : Ends c own refused texts
  | refused {front : List String} (text : String) (h : c.Accepts front.length)
      (hlast : c.writes + front.length ∈ c.failing) (hend : refused) : Ends c own refused (front ++ [text])

/-- How often a number is asked for if the next write has the given number: once, and again behind each answer that is
complained about. -/
def asks (failing : List Nat) (number : Nat) : (input : List Char) → Nat
  | [] => 1
  | ch :: cs =>
    let answer := withoutLineEnd (firstLine (ch :: cs))
    if number ∈ failing then 1
    else if maxAnswer < answer.length then 1
    else
      match parseAnswer answer with
      | some _ => 1
      | none => asks failing (number + 1) (afterFirstLine (ch :: cs)) + 1
termination_by input => input.length
decreasing_by exact length_afterFirstLine_lt ch cs

/-- The prompts for so many numbers, one after another, unless one of them is not given. -/
def prompting : (wanted : Nat) → Console → List String
  | 0, _ => []
  | wanted + 1, c =>
    List.replicate (asks c.failing c.writes c.input) "? " ++
      match c.readNumber with
      | (.ok _, c') => prompting wanted c'
      | (.error _, _) => []

variable {c c' c'' : Console} {texts more : List String} {own refused own' refused' : Prop} {n : Nat}

theorem asks_of_refused {failing : List Nat} {number : Nat} (h : number ∈ failing) (input : List Char) :
    asks failing number input = 1 := by
  cases input with
  | nil => rw [asks]
  | cons ch cs => rw [asks, if_pos h]

theorem Tried.refl (c : Console) : c.Tried [] c := ⟨rfl, String.append_empty.symm, rfl, rfl⟩

theorem Tried.trans (h : c.Tried texts c') (h' : c'.Tried more c'') : c.Tried (texts ++ more) c'' where
  writes := by rw [h'.writes, h.writes, List.length_append, Nat.add_assoc]
  output := by rw [h'.output, h.output, h.failing, h.writes, passed_append, String.append_assoc]
  failing := h'.failing.trans h.failing
  failure := h'.failure.trans h.failure

theorem tried_write (text : String) (c : Console) : c.Tried [text] (c.write text).2 := by
  rw [write]
  dsimp only
  split
  · rename_i h
    exact ⟨rfl, by simp [passed, h], rfl, rfl⟩
  · rename_i h
    exact ⟨rfl, by simp [passed, h], rfl, rfl⟩

theorem accepts_zero (c : Console) : c.Accepts 0 := fun _ h => absurd h (Nat.not_lt_zero _)

theorem Accepts.append (h : c.Accepts texts.length) (ht : c.Tried texts c') (h' : c'.Accepts n) :
    c.Accepts (texts.length + n) := by
  intro i hi
  by_cases hlt : i < texts.length
  · exact h i hlt
  · have hlater := h' (i - texts.length) (by omega)
    rwa [ht.writes, ht.failing, Nat.add_assoc, Nat.add_sub_cancel' (Nat.le_of_not_lt hlt)] at hlater

/-- Something behind writes of which none is refused. -/
theorem Ends.append (h : c.Accepts texts.length) (ht : c.Tried texts c') (h' : c'.Ends own refused more) :
    c.Ends own refused (texts ++ more) := by
  cases h' with
  | accepted hmore hend => exact .accepted (List.length_append ▸ h.append ht hmore) hend
  | @refused front text hfront hlast hend =>
    rw [ht.writes, ht.failing, Nat.add_assoc, ← List.length_append] at hlast
    rw [← List.append_assoc]
    exact .refused text (List.length_append ▸ h.append ht hfront) hlast hend

theorem Ends.imp (h : c.Ends own refused texts) (hown : own → own') (hrefused : refused → refused') :
    c.Ends own' refused' texts := by
  cases h with
  | accepted h hend => exact .accepted h (hown hend)
  | refused text h hlast hend => exact .refused text h hlast (hrefused hend)

theorem Ends.or (h : c.Ends own refused texts) : own ∨ refused := by
  cases h with
  | accepted _ hend => exact .inl hend
  | refused _ _ _ hend => exact .inr hend

/-- A write is tried, and refused if its number is among the failing ones. -/
theorem write_eq_error {text : String} {e : WriteError} (h : c.write text = (.error e, c')) :
    c.writes ∈ c.failing ∧ e = c.failure := by
  rw [write] at h
  dsimp only at h
  split at h <;> cases h
  exact ⟨‹_›, rfl⟩

theorem write_eq_ok {text : String} {u : Unit} (h : c.write text = (.ok u, c')) :
    c.writes ∉ c.failing ∧ c' = c.wrote text := by
  rw [write] at h
  dsimp only at h
  split at h <;> cases h
  exact ⟨‹_›, rfl⟩

theorem accepts_one (h : c.writes ∉ c.failing) : c.Accepts 1 := by
  intro i hi
  rwa [Nat.lt_one_iff.1 hi]

/-- If it does not end as it does when a write is refused, none is. -/
theorem Ends.accepts (h : c.Ends own refused texts) (hrefused : ¬refused) : c.Accepts texts.length := by
  cases h with
  | accepted h _ => exact h
  | refused text h hlast hend => exact absurd hend hrefused

/-- Nothing but prompts is tried to get a number, one each time that it is asked for. -/
theorem attempts_readNumber (c : Console) :
    c.Tried (List.replicate (asks c.failing c.writes c.input) "? ") c.readNumber.2 ∧
      c.Ends (∀ h, c.readNumber.1 = .error h → h.Own) (c.readNumber.1 = .error (.ofWriteError c.failure))
        (List.replicate (asks c.failing c.writes c.input) "? ") := by
  have htried := c.tried_write "? "
  -- The prompt is refused, the input has ended, the line is too long, it is a number, or the question is put again.
  fun_induction readNumber c with
  | case1 c e asked hw =>
    obtain ⟨hmem, rfl⟩ := write_eq_error hw
    rw [hw] at htried
    rw [asks_of_refused hmem]
    refine ⟨htried, ?_⟩
    show c.Ends _ _ ([] ++ ["? "])
    exact .refused "? " c.accepts_zero hmem rfl
  | case2 c u asked hw hin =>
    obtain ⟨hmem, rfl⟩ := write_eq_ok hw
    rw [hw] at htried
    rw [wrote_input] at hin
    rw [hin, asks]
    refine ⟨htried, .accepted (accepts_one hmem) fun h hh => ?_⟩
    cases hh
    cases (c.wrote "? ").readFails <;> exact trivial
  | case3 c u asked hw ch cs hin answer answered hlen =>
    obtain ⟨hmem, rfl⟩ := write_eq_ok hw
    rw [hw] at htried
    rw [wrote_input] at hin
    rw [hin, asks, if_neg hmem, if_pos hlen]
    refine ⟨⟨htried.writes, htried.output, htried.failing, htried.failure⟩,
      .accepted (accepts_one hmem) fun h hh => ?_⟩
    cases hh
    trivial
  | case4 c u asked hw ch cs hin answer answered hlen n hparse =>
    obtain ⟨hmem, rfl⟩ := write_eq_ok hw
    rw [hw] at htried
    rw [wrote_input] at hin
    rw [hin, asks, if_neg hmem, if_neg hlen, hparse]
    refine ⟨⟨htried.writes, htried.output, htried.failing, htried.failure⟩,
      .accepted (accepts_one hmem) fun h hh => ?_⟩
    cases hh
  | case5 c u asked hw ch cs hin answer answered hlen hparse ih =>
    obtain ⟨hmem, rfl⟩ := write_eq_ok hw
    rw [hw] at htried
    rw [wrote_input] at hin
    have hcomplained : c.Tried ["? "] (answered.complain (invalidAnswer answer)) :=
      ⟨htried.writes, htried.output, htried.failing, htried.failure⟩
    obtain ⟨hmore, hends⟩ := ih (tried_write _ _)
    rw [hcomplained.failure] at hends
    rw [hin, asks, if_neg hmem, if_neg hlen, hparse]
    exact ⟨hcomplained.trans hmore, .append (accepts_one hmem) hcomplained hends⟩

end Console

/-! ### Computations -/

/-- The computation tries to write some texts, and halts if one of them is refused. -/
structure Run.Attempts {α : Type} (y : Run α) (m : Machine) (texts : List String) : Prop where
  tried : m.console.Tried texts (y m).2.console
  ends : m.console.Ends (∀ h, (y m).1 = .error h → h.Own) ((y m).1 = .error (.ofWriteError m.console.failure)) texts

/-- The computation does not touch the console, and halts for other reasons. -/
structure Run.Silent {α : Type} (y : Run α) : Prop where
  console : Run.Leaves Machine.console y
  own : ∀ m h, (y m).1 = .error h → h.Own

namespace Run

variable {α β : Type} {y : Run α} {f : α → Run β} {m m' : Machine} {texts more : List String}

theorem Silent.attempts (h : y.Silent) (m : Machine) : y.Attempts m [] where
  tried := h.console m ▸ .refl m.console
  ends := .accepted (Console.accepts_zero _) (h.own m)

theorem Attempts.bind (hy : y.Attempts m texts) (hf : ∀ a m', y m = (.ok a, m') → (f a).Attempts m' more)
    (hnone : ∀ h m', y m = (.error h, m') → more = []) : (y >>= f).Attempts m (texts ++ more) := by
  obtain ⟨htried, hends⟩ := hy
  rcases hresult : y m with ⟨h | a, m'⟩
  · obtain rfl := hnone h m' hresult
    have hbind : (y >>= f) m = (.error h, m') := by rw [bind_apply, hresult]
    rw [List.append_nil]
    rw [hresult] at htried hends
    refine ⟨by rwa [hbind], ?_⟩
    rw [hbind]
    exact hends.imp (fun hown h' hh => hown h' (by cases hh; rfl)) fun hh => by cases hh; rfl
  · have hbind : (y >>= f) m = f a m' := by rw [bind_apply, hresult]
    obtain ⟨htried', hends'⟩ := hf a m' hresult
    rw [hresult] at htried hends
    refine ⟨by rw [hbind]; exact htried.trans htried', ?_⟩
    rw [hbind, ← htried.failure]
    exact .append (hends.accepts nofun) htried hends'

theorem attempts_put (text : String) (m : Machine) : (put text).Attempts m [text] := by
  have htried := m.console.tried_write text
  rw [Console.write] at htried
  by_cases hmem : m.console.writes ∈ m.console.failing
  · have hput : put text m = (.error (.ofWriteError m.console.failure),
        { m with console.writes := m.console.writes + 1 }) := by
      rw [put, Console.print, Console.write, if_pos hmem]
    rw [if_pos hmem] at htried
    refine ⟨by rwa [hput], ?_⟩
    rw [hput]
    show m.console.Ends _ _ ([] ++ [text])
    exact .refused text (Console.accepts_zero _) hmem rfl
  · have hput : put text m = (.ok (), { m with console := m.console.wrote text }) := by
      rw [put, Console.print, Console.write, if_neg hmem]
      rfl
    rw [if_neg hmem] at htried
    refine ⟨by rw [hput]; exact htried, ?_⟩
    rw [hput]
    refine .accepted (fun i hi => by rwa [Nat.lt_one_iff.1 hi]) fun h hh => ?_
    cases hh

theorem ask_eq (m : Machine) : (ask m).2.console = m.console.readNumber.2 ∧
    ∀ h, (ask m).1 = .error h ↔ m.console.readNumber.1 = .error h := by
  rw [ask]
  split
  · rename_i n c hread
    exact ⟨(congrArg Prod.snd hread).symm, fun h => by simp [hread]⟩
  · rename_i e c hread
    exact ⟨(congrArg Prod.snd hread).symm, fun h => by simp [hread]⟩

theorem attempts_ask (m : Machine) :
    ask.Attempts m (List.replicate (Console.asks m.console.failing m.console.writes m.console.input) "? ") := by
  obtain ⟨hconsole, hhalts⟩ := ask_eq m
  obtain ⟨htried, hends⟩ := m.console.attempts_readNumber
  exact ⟨hconsole ▸ htried, hends.imp (fun hown h hh => hown h ((hhalts h).1 hh)) (hhalts _).2⟩

namespace Silent

theorem pure (a : α) : Silent (Pure.pure a : Run α) := ⟨.pure a, nofun⟩

theorem bind (hy : Silent y) (hf : ∀ a, Silent (f a)) : Silent (y >>= f) := by
  refine ⟨hy.console.bind fun a => (hf a).console, fun m h hh => ?_⟩
  rw [bind_apply] at hh
  rcases hresult : y m with ⟨e | a, m'⟩
  · rw [hresult] at hh
    cases hh
    exact hy.own m h (by rw [hresult])
  · rw [hresult] at hh
    exact (hf a).own m' h hh

theorem mapM {ι : Type} {g : ι → Run α} (as : List ι) (h : ∀ a, Silent (g a)) : Silent (as.mapM g) := by
  induction as with
  | nil => exact pure []
  | cons a as ih =>
    rw [List.mapM_cons]
    exact (h a).bind fun b => ih.bind fun bs => pure (b :: bs)

theorem modify {g : Machine → Machine} (h : ∀ m, (g m).console = m.console) : Silent (modify g : Run Unit) :=
  ⟨.modify h, nofun⟩

theorem update (v : Letter) (w : Word) : Silent (Run.update v w) := modify fun _ => rfl

theorem stop {r : Reason} (hr : (Halt.stopped r).Own) : Silent (Run.stop r : Run α) :=
  ⟨.stop r, fun _ h hh => by cases hh; exact hr⟩

theorem jump (table : Int → Option Nat) (n : Word) : Silent (Run.jump table n) := by
  rw [Run.jump]
  split
  · exact modify fun _ => rfl
  · exact stop trivial

theorem save : Silent Run.save := by
  constructor
  case console =>
    intro m
    rw [Run.save_apply]
    split <;> rfl
  case own =>
    intro m h hh
    rw [Run.save_apply] at hh
    split at hh <;> cases hh
    trivial

theorem restore : Silent Run.restore := by
  constructor
  case console =>
    rintro ⟨store, _ | ⟨position, stack⟩, _, _, _, _⟩ <;> rfl
  case own =>
    rintro ⟨store, _ | ⟨position, stack⟩, _, _, _, _⟩ h hh <;> cases hh
    trivial

end Silent

/-- The prompts for all variables of INPUT. -/
theorem attempts_forM_ask (vs : List Letter) (m : Machine) :
    Run.Attempts (vs.forM fun v => do update v (← ask)) m (m.console.prompting vs.length) := by
  induction vs generalizing m with
  | nil => exact (Silent.pure ()).attempts m
  | cons v vs ih =>
    have hrest (w : Word) (m' : Machine) :
        Run.Attempts (update v w >>= fun _ => vs.forM fun v => do update v (← ask)) m'
          ([] ++ m'.console.prompting vs.length) := by
      refine ((Silent.update v w).attempts m').bind (fun u m'' hu => ?_) fun h m'' hh => ?_
      · cases hu
        exact ih _
      · cases hh
    -- How often the others are asked for depends on the console that the first answer leaves behind.
    obtain ⟨hconsole, hhalts⟩ := ask_eq m
    rw [List.forM, bind_assoc, List.length_cons, Console.prompting]
    refine (attempts_ask m).bind (fun w m' hm' => ?_) fun h m' hm' => ?_
    · rcases hread : m.console.readNumber with ⟨e | n, c⟩
      · rw [hread, hm'] at hhalts
        cases (hhalts e).2 rfl
      · rw [hread, hm'] at hconsole
        obtain rfl : m'.console = c := hconsole
        exact hrest w m'
    · rw [hm'] at hhalts
      have hread := (hhalts h).1 rfl
      rcases hresult : m.console.readNumber with ⟨e | n, c⟩
      · rfl
      · rw [hresult] at hread
        cases hread

end Run

open Run

/-- Expressions leave the console alone, and stop at errors of arithmetic. -/
theorem Expr.silent_value {l : Level} (e : PlainExpr l) : Run.Silent e.value := by
  refine ⟨e.leaves_value fun _ _ => rfl, fun m h hh => ?_⟩
  have htracks := e.tracks_value m.values m rfl
  rw [hh] at htracks
  obtain ⟨-, event, -, r, -, -, hr, rfl, -⟩ := Event.outcome_eq_error_iff.1 htracks.symm
  cases event with
  | divisor n | result n =>
    simp only [Event.fault?] at hr
    split at hr <;> cases hr
    trivial
  | draw => cases hr

theorem Item.silent_printed (item : PlainItem) : Run.Silent item.printed := by
  cases item with
  | text s => exact .pure _
  | value e => exact e.silent_value.bind fun _ => .pure _

theorem Comparison.silent_test (r : Comparison) (e₁ e₂ : PlainExpr .sum) : Run.Silent (r.test e₁ e₂) :=
  e₁.silent_value.bind fun _ => e₂.silent_value.bind fun _ => .pure _

/-! ### Statements -/

/-- The texts that a statement tries to write: PRINT its line, if all of its items have values, and INPUT a prompt each
time that it asks. -/
def Stmt.attempts : PlainStmt → Machine → List String
  | .print _ item more, m =>
    match (item :: more).mapM Item.printed m with
    | (.ok texts, _) => [" ".intercalate texts ++ "\n"]
    | (.error _, _) => []
  | .input _ v more, m => m.console.prompting (v :: more).length
  | .branch _ e₁ r _ e₂ body, m =>
    match r.test e₁ e₂ m with
    | (.ok true, m') => body.attempts m'
    | _ => []
  | .assign .., _ | .goto .., _ | .gosub .., _ | .action .., _ => []

theorem Stmt.attempts_exec (table : Int → Option Nat) (s : PlainStmt) (m : Machine) :
    (s.exec table).Attempts m (s.attempts m) := by
  induction s generalizing m with
  | print mark item more =>
    have hitems : Run.Silent ((item :: more).mapM Item.printed) := .mapM _ Item.silent_printed
    rw [exec, attempts]
    refine (hitems.attempts m).bind (fun texts m' hm' => ?_) fun h m' hm' => ?_
    · rw [hm']
      exact attempts_put _ _
    · rw [hm']
  | input mark v more => exact attempts_forM_ask (v :: more) m
  | assign v e => exact (e.silent_value.bind (Silent.update v)).attempts m
  | branch mark e₁ r relation e₂ body ih =>
    rw [exec, attempts]
    -- The test tries nothing, so what is tried belongs to the body.
    refine ((r.silent_test e₁ e₂).attempts m).bind (fun holds m' hm' => ?_) fun h m' hm' => ?_
    · rw [hm']
      cases holds with
      | false => exact (Silent.pure ()).attempts m'
      | true => exact ih m'
    · rw [hm']
  | goto mark e => exact (e.silent_value.bind fun w => .jump table w).attempts m
  | gosub mark e => exact (Silent.save.bind fun _ => e.silent_value.bind fun w => .jump table w).attempts m
  | action mark a =>
    cases a with
    | ret => exact Silent.restore.attempts m
    | halt =>
      refine Silent.attempts ?_ m
      exact .modify fun _ => rfl
    | clear | list | run =>
      have hstop : Run.Silent (Run.stop .notImplemented : Run Unit) := .stop trivial
      exact hstop.attempts m

/-! ### Runs -/

/-- The end of a run that has nothing to do with writes. -/
def Outcome.Own : Outcome → Prop
  | .failed e => (Halt.stopped e.reason).Own
  | .aborted _ => False
  | .more | .finished => True

/-- The end of a run of which a write is refused: it is broken off if there is no memory left, and fails otherwise. -/
inductive Outcome.Refused : WriteError → Outcome → Prop
  | memory : Refused .memory (.aborted .outOfMemory)
  | failed {e : WriteError} (he : e ≠ .memory) (token : Option TokenId) :
    Refused e (.failed ⟨.ioFailed (.write e), token⟩)

theorem Outcome.Refused.of_stopped {r : Reason} {e : WriteError} (h : Halt.stopped r = .ofWriteError e)
    (token : Option TokenId) : Outcome.Refused e (.failed ⟨r, token⟩) := by
  cases e <;> cases h
  · exact .failed (by decide) token
  · exact .failed (by decide) token

theorem Outcome.Refused.of_aborted {a : Abort} {e : WriteError} (h : Halt.aborted a = .ofWriteError e) :
    Outcome.Refused e (.aborted a) := by
  cases e <;> cases h
  exact .memory

theorem Outcome.not_refused_of_own {o : Outcome} (h : o.Own) (e : WriteError) : ¬o.Refused e := by
  rintro (_ | _)
  · exact h
  · exact h

theorem Outcome.ne_fault_of_refused {o : Outcome} {e : WriteError} (h : o.Refused e) (f : Fault) :
    o ≠ .aborted (.fault f) := by
  rintro rfl
  cases h

theorem Outcome.ne_fault_of_own {o : Outcome} (h : o.Own) (f : Fault) : o ≠ .aborted (.fault f) := by
  rintro rfl
  exact h

namespace Machine

variable (clauses : List Clause)

/-- The texts that the line at the present position tries to write. -/
def lineAttempts (m : Machine) : List String :=
  match clauses[m.position]? with
  | none => []
  | some c => c.line.body.attempts { m with position := m.position + 1 }

/-- The texts that a run of up to `limit` lines tries to write. -/
def attempts : (limit : Nat) → Machine → List String
  | 0, _ => []
  | limit + 1, m =>
    m.lineAttempts clauses ++
      match m.step clauses with
      | (.more, m') => attempts limit m'
      | _ => []

/-- Some writes are tried on the way from a machine to another one, and if one of them is refused it is the last one
and tells how the way ends. -/
structure Writes (m : Machine) (texts : List String) (result : Outcome × Machine) : Prop where
  tried : m.console.Tried texts result.2.console
  ends : m.console.Ends result.1.Own (result.1.Refused m.console.failure) texts

variable {clauses} {m m' : Machine} {texts more : List String} {result : Outcome × Machine}

theorem Writes.trans (h : m.Writes texts (.more, m')) (h' : m'.Writes more result) :
    m.Writes (texts ++ more) result := by
  have hmore : ¬Outcome.Refused m.console.failure .more := Outcome.not_refused_of_own (o := .more) trivial _
  have hends := h'.ends
  rw [h.tried.failure] at hends
  exact ⟨h.tried.trans h'.tried, .append (h.ends.accepts hmore) h.tried hends⟩

theorem writes_step (m : Machine) : m.Writes (m.lineAttempts clauses) (m.step clauses) := by
  rw [step, lineAttempts]
  cases clauses[m.position]? with
  | none => exact ⟨.refl _, .accepted (Console.accepts_zero _) trivial⟩
  | some c =>
    obtain ⟨htried, hends⟩ := c.line.body.attempts_exec (lastNumbered · clauses) { m with position := m.position + 1 }
    dsimp only at htried hends ⊢
    generalize c.line.body.exec (lastNumbered · clauses) { m with position := m.position + 1 } = result at htried hends
    rcases result with ⟨h | u, m'⟩
    · cases h with
      | stopped r =>
        exact ⟨htried, hends.imp (fun hown => hown _ rfl) fun hr => .of_stopped (Except.error.inj hr) _⟩
      | aborted a =>
        exact ⟨htried, hends.imp (fun hown => hown _ rfl) fun ha => .of_aborted (Except.error.inj ha)⟩
    · exact ⟨htried, hends.imp (fun _ => trivial) fun hr => by cases hr⟩

/-- What a run writes. -/
theorem writes_stepsFrom (done limit : Nat) (m : Machine) :
    m.Writes (m.attempts clauses limit) (m.stepsFrom clauses done limit).2 := by
  induction limit generalizing done m with
  | zero => exact ⟨.refl _, .accepted (Console.accepts_zero _) trivial⟩
  | succ limit ih =>
    have hstep : m.Writes (m.lineAttempts clauses) (m.step clauses) := m.writes_step
    rw [attempts, stepsFrom]
    generalize m.step clauses = result at hstep
    obtain ⟨o, m'⟩ := result
    cases o with
    | more => exact hstep.trans (ih (done + 1) m')
    | finished | failed e | aborted a => exact (List.append_nil (m.lineAttempts clauses)).symm ▸ hstep

end Machine

/-- What a run of a program writes: what the run of its plain lines does. -/
theorem Image.Represents.writes_steps {image : Image} {clauses : List Clause} (h : image.Represents clauses)
    (limit : Nat) (c : Console) (seed : Int) :
    c.Tried ((Machine.initial c seed).attempts clauses limit) (image.steps limit (.initial c seed)).2.2.console ∧
      c.Ends (image.steps limit (.initial c seed)).2.1.Own ((image.steps limit (.initial c seed)).2.1.Refused c.failure)
        ((Machine.initial c seed).attempts clauses limit) := by
  have hwrites : (Machine.initial c seed).Writes _ ((Machine.initial c seed).stepsFrom clauses 0 limit).2 :=
    Machine.writes_stepsFrom 0 limit _
  rw [Image.steps, ← Machine.toState_initial, h.stepsFrom_eq]
  exact ⟨hwrites.tried, hwrites.ends⟩

end LineBasic

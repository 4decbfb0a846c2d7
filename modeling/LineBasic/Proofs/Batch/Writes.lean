import LineBasic.Proofs.Batch.Loading
import LineBasic.Proofs.Machine.Attempts

/-!
# Writes of batch runs

All writes of a batch run are accounted for, however many of them are refused. What is put out are the texts of those
that are not refused. A refused write of the program is its last one, and is reported; any other refused write ends the
batch run with a failure, and nothing else does.

## Main definitions

* `Batch.Attempt`: a write that is tried, and what it belongs to.
* `Batch.Course`: the writes that a batch run tries.
* `Batch.Fails`: one of them is refused that is not the program's own.
* `Batch.EndsRun`: a write of the program ends its run.
* `Batch.Accounts`: what the writes have to do with what a batch run puts out and how it ends.
* `Batch.Tries`: what a part of a batch run tries to write.

## Main results

* `Batch.run_accounts`: the writes of batch runs.
-/

namespace LineBasic.Batch

/-- What a write belongs to. -/
inductive Origin where
  /-- The list of the tokens. -/
  | tokens
  /-- The list of the nodes. -/
  | nodes
  /-- The running program. -/
  | program
  /-- The report of an error. -/
  | report
  /-- The report that there is no memory left. -/
  | memory
  deriving DecidableEq, Repr

/-- A write that is tried. -/
structure Attempt where
  origin : Origin
  text : String
  deriving DecidableEq, Repr

/-- The write of a list that may be asked for. -/
def listed (wanted : Bool) (origin : Origin) (text : String) : List Attempt :=
  if wanted then [⟨origin, text⟩] else []

/-- The writes of a program. -/
def ownAttempts (texts : List String) : List Attempt := texts.map (⟨.program, ·⟩)

@[simp] theorem map_text_ownAttempts (texts : List String) : (ownAttempts texts).map Attempt.text = texts := by
  simp [ownAttempts, Function.comp_def]

/-- The write behind a run. -/
def closing (p : Program) : Outcome → List Attempt
  | .failed e => [⟨.report, e.report p⟩]
  | .aborted .outOfMemory => [⟨.memory, outOfMemory⟩]
  | .more | .finished | .aborted (.fault _) => []

/-- The writes that a batch run tries, and the program with the state in which its run ends, if it is run. The lists
come first, and the batch run goes on if they are not refused. -/
inductive Course (limit : Nat) (seed : Int) (debug : Bool) (source : List Char) (tokens : List Token) (c : Console) :
    List Attempt → Option (Program × State) → Prop
  /-- The list of the tokens is refused. -/
  | tokens (hdebug : debug = true) (hrefused : c.writes ∈ c.failing) :
      Course limit seed debug source tokens c [⟨.tokens, listTokens source tokens⟩] none
  /-- The text is no program, which is reported. -/
  | report {e : SyntaxError} (haccepted : debug = true → c.writes ∉ c.failing)
      (hparse : Program.ofTokens source tokens = .error (.wrong e)) :
      Course limit seed debug source tokens c
        (listed debug .tokens (listTokens source tokens) ++ [⟨.report, e.report source tokens⟩]) none
  /-- The list of the nodes is refused. -/
  | nodes {p : Program} {nodes : String} (hdebug : debug = true) (haccepted : c.writes ∉ c.failing)
      (hrefused : c.writes + 1 ∈ c.failing) (hparse : Program.ofTokens source tokens = .ok p)
      (hnodes : p.listNodes = .ok nodes) :
      Course limit seed debug source tokens c [⟨.tokens, listTokens source tokens⟩, ⟨.nodes, nodes⟩] none
  /-- The program is run. -/
  | run {p : Program} {nodes : String} {image : Image} {clauses : List Clause} {done : Nat} {o : Outcome} {s : State}
      {start : Console} (haccepted : debug = true → c.writes ∉ c.failing ∧ c.writes + 1 ∉ c.failing)
      (hparse : Program.ofTokens source tokens = .ok p) (hnodes : p.listNodes = .ok nodes)
      (hclauses : p.Means clauses) (himage : Image.ofProgram p = .ok image)
      (hstart : start = (c.wroteIf debug (listTokens source tokens)).wroteIf debug nodes)
      (hrun : image.steps limit (.initial start seed) = (done, o, s)) :
      Course limit seed debug source tokens c
        (listed debug .tokens (listTokens source tokens) ++ listed debug .nodes nodes ++
          (ownAttempts ((Machine.initial start seed).attempts clauses limit) ++ closing p o)) (some (p, s))

/-- One of the writes is refused that are not the program's own. -/
def Fails (c : Console) (tried : List Attempt) : Prop :=
  ∃ i a, tried[i]? = some a ∧ a.origin ≠ .program ∧ c.writes + i ∈ c.failing

/-- The write of the program at a place ends its run, which is in the given state then. -/
structure EndsRun (c : Console) (tried : List Attempt) (p : Program) (s : State) (i : Nat) : Prop where
  /-- It is the last write of the program. -/
  last : ∀ j b, tried[j]? = some b → b.origin = .program → j ≤ i
  /-- One more write is tried. -/
  length : tried.length = i + 2
  /-- If there is no memory left, that is what the write behind it says, and it is no error of the program. Otherwise it
  is the only error of the program, and the write behind it is its report. -/
  reported : if c.failure = .memory then s.errors = [] ∧ tried[i + 1]? = some ⟨.memory, outOfMemory⟩
    else ∃ e, s.errors = [e] ∧ e.reason = .ioFailed (.write c.failure) ∧ tried[i + 1]? = some ⟨.report, e.report p⟩

/-- What a batch run puts out and how it ends, given the writes that it tries. -/
structure Accounts (c : Console) (tried : List Attempt) (ended : Option (Program × State))
    (result : Except Failure (Option (Program × State)) × Console) : Prop where
  /-- The texts of those writes are put out that are not refused. -/
  written : c.Tried (tried.map Attempt.text) result.2
  /-- A write of the program that is refused ends its run. -/
  own : ∀ i a, tried[i]? = some a → a.origin = .program → c.writes + i ∈ c.failing →
    ∃ p s, ended = some (p, s) ∧ EndsRun c tried p s i
  /-- The batch run fails exactly if another write is refused. -/
  escapes : ∀ f, result.1 = .error f ↔ f = .write c.failure ∧ Fails c tried
  /-- If it does not fail, it yields the state in which the run ends. -/
  yields : ∀ p s, result.1 = .ok (some (p, s)) → ∃ s', ended = some (p, s') ∧ s = { s' with console := result.2 }

/-! ### Parts of a batch run -/

/-- A part of a batch run tries some writes, and fails exactly if one of them is refused that is not the program's
own. -/
structure Tries {α : Type} (x : Job α) (c : Console) (tried : List Attempt) : Prop where
  written : c.Tried (tried.map Attempt.text) (x c).2
  escapes : ∀ f, (x c).1 = .error f ↔ f = .write c.failure ∧ Fails c tried

section Parts

variable {α β : Type} {c c' : Console} {tried more : List Attempt} {x : Job α} {k : α → Job β} {a : α} {f : Failure}

theorem not_fails_nil (c : Console) : ¬Fails c [] := by
  rintro ⟨i, a, hi, -⟩
  cases hi

theorem fails_append_iff (h : c.Tried (tried.map Attempt.text) c') :
    Fails c (tried ++ more) ↔ Fails c tried ∨ Fails c' more := by
  have hwrites : c'.writes = c.writes + tried.length := by rw [h.writes, List.length_map]
  constructor
  · rintro ⟨i, a, hi, ha, hmem⟩
    by_cases hlt : i < tried.length
    · rw [List.getElem?_append_left hlt] at hi
      exact .inl ⟨i, a, hi, ha, hmem⟩
    · have hle : tried.length ≤ i := Nat.le_of_not_lt hlt
      rw [List.getElem?_append_right hle] at hi
      refine .inr ⟨i - tried.length, a, hi, ha, ?_⟩
      rwa [h.failing, hwrites, Nat.add_assoc, Nat.add_sub_cancel' hle]
  · rintro (⟨i, a, hi, ha, hmem⟩ | ⟨i, a, hi, ha, hmem⟩)
    · obtain ⟨hlt, -⟩ := List.getElem?_eq_some_iff.1 hi
      exact ⟨i, a, by rwa [List.getElem?_append_left hlt], ha, hmem⟩
    · refine ⟨tried.length + i, a, ?_, ha, ?_⟩
      · rwa [List.getElem?_append_right (Nat.le_add_right _ _), Nat.add_sub_cancel_left]
      · rwa [h.failing, hwrites, Nat.add_assoc] at hmem

/-- A part that succeeds is followed by another one. -/
theorem Tries.bind_ok (hx : Tries x c tried) (h : x c = (.ok a, c')) (hk : Tries (k a) c' more) :
    Tries (x >>= k) c (tried ++ more) := by
  have hbind : (x >>= k) c = k a c' := by rw [bind_apply, h]
  have hwritten : c.Tried (tried.map Attempt.text) c' := by simpa [h] using hx.written
  constructor
  case written =>
    rw [hbind, List.map_append]
    exact hwritten.trans hk.written
  case escapes =>
    intro f
    have hnone : ¬Fails c tried := fun hfails => by simpa [h] using (hx.escapes (.write c.failure)).2 ⟨rfl, hfails⟩
    rw [hbind, hk.escapes, hwritten.failure, fails_append_iff hwritten, or_iff_right hnone]

/-- A part that fails ends the batch run. -/
theorem Tries.bind_error (hx : Tries x c tried) (h : x c = (.error f, c')) : Tries (x >>= k) c tried := by
  have hbind : (x >>= k) c = (.error f, c') := by rw [bind_apply, h]
  constructor
  case written => simpa [hbind, h] using hx.written
  case escapes =>
    intro f'
    rw [← hx.escapes, hbind, h]
    simp

/-- A part that succeeds and does not touch the console. -/
theorem tries_nothing (h : x c = (.ok a, c)) : Tries x c [] where
  written := by
    rw [h]
    exact .refl c
  escapes f := by
    rw [h]
    exact iff_of_false nofun fun hf => not_fails_nil c hf.2

/-- A part behind which nothing is written. -/
theorem Tries.bind_quiet (hx : Tries x c tried) (hk : ∀ a c', Tries (k a) c' []) : Tries (x >>= k) c tried := by
  rcases h : x c with ⟨f | a, c'⟩
  · exact hx.bind_error h
  · exact List.append_nil tried ▸ hx.bind_ok h (hk a c')

theorem fails_singleton_iff {a : Attempt} (ha : a.origin ≠ .program) : Fails c [a] ↔ c.writes ∈ c.failing := by
  constructor
  · rintro ⟨_ | i, b, hi, -, hmem⟩
    · exact hmem
    · cases hi
  · exact fun hmem => ⟨0, a, rfl, ha, hmem⟩

theorem tries_put {origin : Origin} (h : origin ≠ .program) (text : String) (c : Console) :
    Tries (put text) c [⟨origin, text⟩] := by
  have htried := c.tried_write text
  by_cases hmem : c.writes ∈ c.failing
  · rw [Console.write, if_pos hmem] at htried
    refine ⟨by rw [put_of_refused hmem]; exact htried, fun f => ?_⟩
    rw [put_of_refused hmem, fails_singleton_iff h, and_iff_left hmem]
    simp [eq_comm]
  · rw [Console.write, if_neg hmem] at htried
    refine ⟨by rw [put_of_accepted hmem]; exact htried, fun f => ?_⟩
    rw [put_of_accepted hmem, fails_singleton_iff h]
    simp [hmem]

/-- A list that is asked for is a write. -/
theorem tries_putIf {origin : Origin} (h : origin ≠ .program) (wanted : Bool) (text : String) (c : Console) :
    Tries (putIf wanted (pure text)) c (listed wanted origin text) := by
  cases wanted with
  | false => exact tries_nothing rfl
  | true => exact tries_put h text c

/-- A run tries the writes of the program, and does not fail. -/
theorem tries_execute {image : Image} {clauses : List Clause} (hrep : image.Represents clauses) (limit : Nat)
    (seed : Int) (c : Console) :
    Tries (execute limit seed image) c (ownAttempts ((Machine.initial c seed).attempts clauses limit)) := by
  constructor
  case written =>
    rw [map_text_ownAttempts]
    exact (hrep.writes_steps limit c seed).1
  case escapes =>
    intro f
    refine iff_of_false nofun ?_
    rintro ⟨-, i, a, hi, ha, -⟩
    obtain ⟨text, -, rfl⟩ := List.mem_map.1 (List.mem_of_getElem? hi)
    exact ha rfl

theorem tries_conclude {o : Outcome} (h : ∀ f, o ≠ .aborted (.fault f)) (p : Program) (c : Console) :
    Tries (conclude p o) c (closing p o) := by
  cases o with
  | more | finished => exact tries_nothing rfl
  | failed e => exact tries_put (by decide) _ c
  | aborted a =>
    cases a with
    | outOfMemory => exact tries_put (by decide) _ c
    | fault f => exact absurd rfl (h f)

end Parts

/-! ### Whole batch runs -/

section Runs

variable {limit : Nat} {seed : Int} {debug : Bool} {source : List Char} {tokens : List Token} {c : Console}
  {p : Program} {image : Image} {clauses : List Clause} {tried : List Attempt}

/-- A run that is reported yields its last state, with the console behind the report. -/
theorem runProgram_yields (himage : Image.ofProgram p = .ok image) {done : Nat} {o : Outcome} {s s' : State}
    (hsteps : image.steps limit (.initial c seed) = (done, o, s)) (h : (runProgram limit seed p c).1 = .ok s') :
    s' = { s with console := (runProgram limit seed p c).2 } := by
  have hrun : runProgram limit seed p c =
      ((conclude p o >>= fun _ => do return { s with console := ← get }) : Job State) s.console := by
    rw [runProgram, himage, sound_ok, pure_bind, bind_apply, execute, hsteps]
  rw [hrun, bind_apply] at h ⊢
  rcases hresult : conclude p o s.console with ⟨f | u, c'⟩
  · rw [hresult] at h
    cases h
  · rw [hresult] at h
    exact (Except.ok.inj h).symm

/-- A program that is run. -/
theorem tries_runProgram (hrep : image.Represents clauses) (himage : Image.ofProgram p = .ok image) {done : Nat}
    {o : Outcome} {s : State} (hsteps : image.steps limit (.initial c seed) = (done, o, s)) :
    Tries (runProgram limit seed p) c
      (ownAttempts ((Machine.initial c seed).attempts clauses limit) ++ closing p o) := by
  have hends := (hrep.writes_steps limit c seed).2
  rw [hsteps] at hends
  have hfault : ∀ f, o ≠ .aborted (.fault f) := hends.or.elim Outcome.ne_fault_of_own Outcome.ne_fault_of_refused
  have hexecute : execute limit seed image c = (.ok (o, s), s.console) := by rw [execute, hsteps]
  rw [runProgram, himage, sound_ok, pure_bind]
  refine (tries_execute hrep limit seed c).bind_ok hexecute ?_
  exact (tries_conclude hfault p s.console).bind_quiet fun _ c' => tries_nothing rfl

theorem run_eq_of_error (h : scan source = .ok tokens) {e : SyntaxError}
    (hparse : Program.ofTokens source tokens = .error (.wrong e)) :
    run limit seed debug source =
      (putIf debug (pure (listTokens source tokens)) >>= fun _ => put (e.report source tokens)) >>= fun _ =>
        return none := by
  simp [run, load, h, hparse]

theorem run_eq_of_ok (h : scan source = .ok tokens) (hparse : Program.ofTokens source tokens = .ok p) {nodes : String}
    (hnodes : p.listNodes = .ok nodes) :
    run limit seed debug source =
      (putIf debug (pure (listTokens source tokens)) >>= fun _ => putIf debug (pure nodes)) >>= fun _ => do
        return some (p, ← runProgram limit seed p) := by
  simp [run, load, h, hparse, hnodes, sound_ok]

/-- A batch run that ends with a failure before the program is run. -/
theorem Tries.accounts_of_error {x : Job Unit} {k : Unit → Job (Option (Program × State))} {f : Failure} {c' : Console}
    (hx : Tries x c tried) (h : x c = (.error f, c')) (hnone : ∀ a ∈ tried, a.origin ≠ .program) :
    Accounts c tried none ((x >>= k) c) where
  written := (hx.bind_error h).written
  own _ a hi ha := absurd ha (hnone a (List.mem_of_getElem? hi))
  escapes := (hx.bind_error h).escapes
  yields p s hs := by
    rw [bind_apply, h] at hs
    cases hs

/-- A batch run that does not run a program. -/
theorem Tries.accounts_of_none {x : Job Unit} (hx : Tries x c tried) (hnone : ∀ a ∈ tried, a.origin ≠ .program) :
    Accounts c tried none ((x >>= fun _ => return none) c) := by
  rcases h : x c with ⟨f | u, c'⟩
  · exact hx.accounts_of_error h hnone
  · have hquiet : Tries (x >>= fun _ => pure (none : Option (Program × State))) c tried :=
      hx.bind_quiet fun _ _ => tries_nothing rfl
    refine ⟨hquiet.written, fun _ a hi ha => absurd ha (hnone a (List.mem_of_getElem? hi)), hquiet.escapes, ?_⟩
    intro p s hs
    rw [bind_apply, h] at hs
    cases hs

theorem origin_ne_of_mem_listed {origin : Origin} (horigin : origin ≠ .program) (wanted : Bool) (text : String) :
    ∀ a ∈ listed wanted origin text, a.origin ≠ .program := by
  intro a ha
  rw [listed] at ha
  split at ha
  · rwa [List.mem_singleton.1 ha]
  · cases ha

theorem origin_ne_of_mem_closing (p : Program) (o : Outcome) : ∀ a ∈ closing p o, a.origin ≠ .program := by
  intro a h
  cases o with
  | more | finished => cases h
  | failed e =>
    rw [List.mem_singleton.1 h]
    nofun
  | aborted f =>
    cases f with
    | outOfMemory =>
      rw [List.mem_singleton.1 h]
      nofun
    | fault f => cases h

/-- Where the writes of the program stand among those of a batch run. -/
theorem exists_index_of_program {front back : List Attempt} {texts : List String} {i : Nat} {a : Attempt}
    (hfront : ∀ a ∈ front, a.origin ≠ .program) (hback : ∀ a ∈ back, a.origin ≠ .program)
    (hi : (front ++ (ownAttempts texts ++ back))[i]? = some a) (ha : a.origin = .program) :
    ∃ j, i = front.length + j ∧ j < texts.length := by
  have hlength : (ownAttempts texts).length = texts.length := List.length_map _
  by_cases hlt : i < front.length
  · rw [List.getElem?_append_left hlt] at hi
    exact absurd ha (hfront a (List.mem_of_getElem? hi))
  · have hle : front.length ≤ i := Nat.le_of_not_lt hlt
    rw [List.getElem?_append_right hle] at hi
    refine ⟨i - front.length, (Nat.add_sub_cancel' hle).symm, Nat.lt_of_not_le fun hge => ?_⟩
    rw [List.getElem?_append_right (hlength.symm ▸ hge)] at hi
    exact absurd ha (hback a (List.mem_of_getElem? hi))

/-- A run of which a write is refused is closed by one more write. -/
theorem closing_of_refused {o : Outcome} {e : WriteError} (h : o.Refused e) (p : Program) :
    ∃ last, closing p o = [last] ∧
      if e = .memory then o.recorded = [] ∧ last = ⟨.memory, outOfMemory⟩
      else ∃ error, o.recorded = [error] ∧ error.reason = .ioFailed (.write e) ∧ last = ⟨.report, error.report p⟩ := by
  cases h with
  | memory => exact ⟨_, rfl, rfl, rfl⟩
  | failed he token => exact ⟨_, rfl, by rw [if_neg he]; exact ⟨_, rfl, rfl, rfl⟩⟩

/-- A write of the program that is refused ends its run. -/
theorem endsRun_of_ends {front : List Attempt} {start : Console} {texts : List String} {o : Outcome} {s : State}
    (hfront : ∀ a ∈ front, a.origin ≠ .program) (hstart : c.Tried (front.map Attempt.text) start)
    (hends : start.Ends o.Own (o.Refused start.failure) texts) (herrors : s.errors = o.recorded)
    (htried : tried = front ++ (ownAttempts texts ++ closing p o)) {i : Nat} {a : Attempt} (hi : tried[i]? = some a)
    (ha : a.origin = .program) (hmem : c.writes + i ∈ c.failing) : EndsRun c tried p s i := by
  have hindex {j : Nat} {b : Attempt} (hb : tried[j]? = some b) (hb' : b.origin = .program) :
      ∃ k, j = front.length + k ∧ k < texts.length := by
    rw [htried] at hb
    exact exists_index_of_program hfront (origin_ne_of_mem_closing p o) hb hb'
  obtain ⟨j, rfl, hj⟩ := hindex hi ha
  rw [← Nat.add_assoc, ← List.length_map Attempt.text, ← hstart.writes, ← hstart.failing] at hmem
  cases hends with
  | accepted haccepts _ => exact absurd hmem (haccepts j hj)
  | @refused own text haccepts hlast hrefused =>
    -- The writes in front of the last one are not refused, so this is the last one.
    have hjown : j = own.length := by
      rw [List.length_append, List.length_singleton] at hj
      exact Nat.le_antisymm (Nat.le_of_lt_succ hj) (Nat.le_of_not_lt fun hlt => haccepts j hlt hmem)
    subst hjown
    rw [hstart.failure] at hrefused
    obtain ⟨last, hclosing, hreport⟩ := closing_of_refused hrefused p
    have hlength : front.length + own.length + 1 = (front ++ ownAttempts (own ++ [text])).length := by
      simp [ownAttempts, Nat.add_assoc]
    rw [hclosing, ← List.append_assoc] at htried
    have hbehind : tried[front.length + own.length + 1]? = some last := by
      rw [htried, hlength, List.getElem?_concat_length]
    constructor
    case last =>
      intro k b hb hb'
      obtain ⟨k, rfl, hk⟩ := hindex hb hb'
      rw [List.length_append, List.length_singleton] at hk
      exact Nat.add_le_add_left (Nat.le_of_lt_succ hk) _
    case length => rw [htried, List.length_append, ← hlength, List.length_singleton]
    case reported =>
      rw [hbehind, herrors]
      split
      · rename_i hmemory
        rw [if_pos hmemory] at hreport
        exact ⟨hreport.1, congrArg some hreport.2⟩
      · rename_i hmemory
        rw [if_neg hmemory] at hreport
        obtain ⟨e, he, hreason, hlast⟩ := hreport
        exact ⟨e, he, hreason, congrArg some hlast⟩

/-- A batch run that runs a program. -/
theorem Tries.accounts_of_run {x : Job Unit} {front : List Attempt} {start : Console} {done : Nat} {o : Outcome}
    {s : State} (hx : Tries x c front) (h : x c = (.ok (), start)) (hfront : ∀ a ∈ front, a.origin ≠ .program)
    (hrep : image.Represents clauses) (himage : Image.ofProgram p = .ok image)
    (hsteps : image.steps limit (.initial start seed) = (done, o, s)) :
    Accounts c (front ++ (ownAttempts ((Machine.initial start seed).attempts clauses limit) ++ closing p o))
      (some (p, s)) ((x >>= fun _ => do return some (p, ← runProgram limit seed p)) c) := by
  have hrest : Tries (runProgram limit seed p >>= fun s => return some (p, s)) start _ :=
    (tries_runProgram hrep himage hsteps).bind_quiet fun _ _ => tries_nothing rfl
  have hwhole : Tries (x >>= fun _ => do return some (p, ← runProgram limit seed p)) c _ := hx.bind_ok h hrest
  refine ⟨hwhole.written, fun i a hi ha hmem => ?_, hwhole.escapes, fun p' s' hs => ?_⟩
  · -- The program starts with the console that the lists leave behind, and none of these writes is its own.
    have hstart : c.Tried (front.map Attempt.text) start := by simpa [h] using hx.written
    have hends := (hrep.writes_steps limit start seed).2
    have herrors := image.errors_steps limit start seed
    rw [hsteps] at hends herrors
    exact ⟨p, s, rfl, endsRun_of_ends hfront hstart hends herrors rfl hi ha hmem⟩
  · rw [bind_apply, h] at hs ⊢
    dsimp only at hs ⊢
    rw [bind_apply] at hs ⊢
    rcases hresult : runProgram limit seed p start with ⟨f | s'', c'⟩
    · rw [hresult] at hs
      cases hs
    · rw [hresult] at hs
      cases hs
      have hyields := runProgram_yields himage hsteps (congrArg Prod.fst hresult)
      rw [hresult] at hyields
      exact ⟨s, rfl, hyields⟩

/-- A text that is no program. -/
theorem run_accounts_of_error (h : scan source = .ok tokens) {e : SyntaxError}
    (hparse : Program.ofTokens source tokens = .error (.wrong e)) (limit : Nat) (seed : Int) (debug : Bool)
    (c : Console) : ∃ tried, Course limit seed debug source tokens c tried none ∧
      Accounts c tried none (run limit seed debug source c) := by
  have hlist : Tries (putIf debug (pure (listTokens source tokens))) c
      (listed debug .tokens (listTokens source tokens)) := tries_putIf (by decide) debug _ c
  have horigin : ∀ a ∈ listed debug .tokens (listTokens source tokens), a.origin ≠ .program :=
    origin_ne_of_mem_listed (by decide) debug _
  rw [run_eq_of_error h hparse]
  by_cases hrefused : debug = true ∧ c.writes ∈ c.failing
  · obtain ⟨rfl, hmem⟩ := hrefused
    exact ⟨_, .tokens rfl hmem, (hlist.bind_error (put_of_refused hmem _)).accounts_of_none horigin⟩
  · have haccepted : debug = true → c.writes ∉ c.failing := fun hdebug hmem => hrefused ⟨hdebug, hmem⟩
    have hreport : Tries (put (e.report source tokens)) (c.wroteIf debug (listTokens source tokens)) [⟨.report, _⟩] :=
      tries_put (by decide) _ _
    refine ⟨_, .report haccepted hparse, (hlist.bind_ok (putIf_of_accepted haccepted _) hreport).accounts_of_none ?_⟩
    exact List.forall_mem_append.2 ⟨horigin, List.forall_mem_singleton.2 nofun⟩

/-- A text that is a program. -/
theorem run_accounts_of_ok (h : scan source = .ok tokens) (hparse : Program.ofTokens source tokens = .ok p)
    (limit : Nat) (seed : Int) (debug : Bool) (c : Console) :
    ∃ tried ended, Course limit seed debug source tokens c tried ended ∧
      Accounts c tried ended (run limit seed debug source c) := by
  have hp := parse_eq_ok h hparse
  obtain ⟨-, lines, hlines⟩ := Program.parse_eq_ok_iff.1 hp
  obtain ⟨clauses, image, hclauses, himage, -, hrep⟩ := Program.exists_image_of_parse hp
  obtain ⟨nodes, hnodes⟩ := hlines.wellKinded.exists_listing
  have hlist : Tries (putIf debug (pure (listTokens source tokens))) c
      (listed debug .tokens (listTokens source tokens)) := tries_putIf (by decide) debug _ c
  have hlist' (c' : Console) : Tries (putIf debug (pure nodes)) c' (listed debug .nodes nodes) :=
    tries_putIf (by decide) debug _ c'
  have horigin : ∀ a ∈ listed debug .tokens (listTokens source tokens), a.origin ≠ .program :=
    origin_ne_of_mem_listed (by decide) debug _
  have horigin' : ∀ a ∈ listed debug .nodes nodes, a.origin ≠ .program := origin_ne_of_mem_listed (by decide) debug _
  rw [run_eq_of_ok h hparse hnodes]
  -- The list of tokens may be refused, then that of nodes, and otherwise the program is run.
  by_cases hrefused : debug = true ∧ c.writes ∈ c.failing
  · obtain ⟨rfl, hmem⟩ := hrefused
    have hput : putIf true (pure (listTokens source tokens)) c = _ := put_of_refused hmem _
    exact ⟨_, none, .tokens rfl hmem, (hlist.bind_error hput).accounts_of_error (by rw [bind_apply, hput]) horigin⟩
  have haccepted : debug = true → c.writes ∉ c.failing := fun hdebug hmem => hrefused ⟨hdebug, hmem⟩
  have hput := putIf_of_accepted haccepted (listTokens source tokens)
  have hlists : Tries (putIf debug (pure (listTokens source tokens)) >>= fun _ => putIf debug (pure nodes)) c _ :=
    hlist.bind_ok hput (hlist' _)
  by_cases hrefused' : debug = true ∧ c.writes + 1 ∈ c.failing
  · obtain ⟨rfl, hmem⟩ := hrefused'
    have hput' : putIf true (pure nodes) (c.wroteIf true (listTokens source tokens)) = _ := put_of_refused hmem _
    refine ⟨_, none, .nodes rfl (haccepted rfl) hmem hparse hnodes, ?_⟩
    exact hlists.accounts_of_error (by rw [bind_apply, hput]; exact hput')
      (List.forall_mem_append.2 ⟨horigin, horigin'⟩)
  have haccepted' : debug = true → c.writes + 1 ∉ c.failing := fun hdebug hmem => hrefused' ⟨hdebug, hmem⟩
  have hput' : putIf debug (pure nodes) (c.wroteIf debug (listTokens source tokens)) = _ :=
    putIf_of_accepted (by cases debug with | false => nofun | true => exact haccepted') nodes
  rcases hsteps : image.steps limit (.initial ((c.wroteIf debug (listTokens source tokens)).wroteIf debug nodes) seed)
    with ⟨done, o, s⟩
  refine ⟨_, _, .run (fun hdebug => ⟨haccepted hdebug, haccepted' hdebug⟩) hparse hnodes hclauses himage rfl hsteps, ?_⟩
  refine hlists.accounts_of_run ?_ (List.forall_mem_append.2 ⟨horigin, horigin'⟩) hrep himage hsteps
  rw [bind_apply, hput]
  exact hput'

end Runs

/-- A program of two lines that are written. -/
def pair : List Char := "PRINT 1\nPRINT 2\n".toList

/-- A console that refuses the second write. -/
def refusing : Console := { Console.ofInput [] with failing := [1] }

end LineBasic.Batch

import LineBasic.Proofs.Machine.Steps

/-!
# Sessions of a program and of its plain lines

A session with a parsed program is one of the structural machine with its plain lines: the replies are the same,
with all that can be seen of the state behind each operation. A run has no limit on the structural side; on the
other side it ends if some limit suffices.

## Main definitions

* `Session.Ends`: no run of a session is cut off by the limit.
* `Session.Matches`: an operation does the same in two states, up to a relation of the replies.

## Main results

* `Machine.exists_limit_of_runsTo`: a run that ends takes finitely many steps.
* `Session.plays_of_ends`, `Session.exists_limit_of_plays`: the two directions.
* `Session.play_matches`: two sessions whose operations match one by one.
* `Session.play_iff_plays`: sessions of parsed programs.
-/

namespace LineBasic

/-- An error is blamed on the token of a line. -/
def Outcome.Blames (o : Outcome) (clauses : List Clause) : Prop :=
  ∀ e, o = .failed e → ∃ c ∈ clauses, e.token = some c.token

/-! ### Runs -/

namespace Machine

variable {clauses : List Clause} {m m' : Machine} {o : Outcome}

/-- Steps that end in something else than success are a run. -/
theorem runsTo_of_stepsFrom {done limit k : Nat} (h : m.stepsFrom clauses done limit = (k, o, m')) (ho : o ≠ .more) :
    m.RunsTo clauses o m' := by
  induction limit generalizing done m with
  | zero =>
    obtain ⟨-, rfl, -⟩ : done = k ∧ .more = o ∧ m = m' := by simpa [stepsFrom] using h
    exact absurd rfl ho
  | succ limit ih =>
    rw [stepsFrom] at h
    split at h
    · exact .more ‹_› (ih h)
    · rename_i o₁ m₁ hmore hstep
      obtain ⟨-, rfl, rfl⟩ : done = k ∧ o₁ = o ∧ m₁ = m' := by simpa using h
      exact .done hstep ho

/-- A run that ends is found by all limits from some number on. -/
theorem exists_limit_of_runsTo (h : m.RunsTo clauses o m') :
    o ≠ .more ∧ ∃ n, ∀ limit, n ≤ limit → ∀ done, ∃ k, m.stepsFrom clauses done limit = (k, o, m') := by
  induction h with
  | @done m m' o hstep ho =>
    refine ⟨ho, 1, fun limit hlimit done => ⟨done, ?_⟩⟩
    obtain ⟨limit, rfl⟩ : ∃ l, limit = l + 1 := ⟨limit - 1, by omega⟩
    rw [stepsFrom, hstep]
    cases o with
    | more => exact absurd rfl ho
    | finished => rfl
    | failed e => rfl
    | aborted a => rfl
  | @more m m' m'' o hstep _ ih =>
    obtain ⟨ho, n, hn⟩ := ih
    refine ⟨ho, n + 1, fun limit hlimit done => ?_⟩
    obtain ⟨limit, rfl⟩ : ∃ l, limit = l + 1 := ⟨limit - 1, by omega⟩
    obtain ⟨k, hk⟩ := hn limit (by omega) (done + 1)
    refine ⟨k, ?_⟩
    rw [stepsFrom, hstep]
    exact hk

theorem step_blames (clauses : List Clause) (m : Machine) : (m.step clauses).1.Blames clauses := by
  rw [step]
  split
  · exact fun e h => by cases h
  · rename_i c hc
    split
    · exact fun e h => by cases h
    · rename_i r m' hexec
      intro e h
      cases h
      exact ⟨c, List.mem_of_getElem? hc, rfl⟩
    · exact fun e h => by cases h

theorem stepsFrom_blames (clauses : List Clause) (done limit : Nat) (m : Machine) :
    (m.stepsFrom clauses done limit).2.1.Blames clauses := by
  induction limit generalizing done m with
  | zero => exact fun e h => by cases h
  | succ limit ih =>
    have hstep := step_blames clauses m
    rw [stepsFrom]
    split
    · exact ih _ _
    · rename_i heq
      rw [heq] at hstep
      exact hstep

end Machine

/-! ### Operations -/

/-- What an operation yields, given its report and its last outcome. -/
def Session.replyOf (r : Session.Report) (o : Outcome) (m : Machine) : Except Abort Session.Reply :=
  o.error?.map (⟨r, ·, m.toState⟩)

namespace Image.Represents

variable {image : Image} {clauses : List Clause}

theorem exists_token (h : image.Represents clauses) {c : Clause} (hc : c ∈ clauses) :
    ∃ t, image.program.token c.token = .ok t := by
  obtain ⟨position, hposition⟩ := List.mem_iff_getElem?.1 hc
  obtain ⟨i, b, n, -, -, -, -, hb⟩ := h.exists_line hposition
  obtain ⟨body, hbody, ht⟩ := hb.exists_token
  obtain ⟨t, ht, -⟩ := Program.exists_token_eq (h.shows.sound.fits hbody _ ht)
  exact ⟨t, ht⟩

theorem errorOf_eq (h : image.Represents clauses) {o : Outcome} (ho : o.Blames clauses) :
    Session.errorOf image.program o = o.error? := by
  cases o with
  | more => rfl
  | finished => rfl
  | aborted a => rfl
  | failed e =>
    obtain ⟨c, hc, htoken⟩ := ho e rfl
    obtain ⟨t, ht⟩ := h.exists_token hc
    rw [Session.errorOf, htoken]
    show (do
      let _ ← (some <$> image.program.token c.token).mapError Abort.fault
      return some e : Except Abort (Option RuntimeError)) = _
    rw [ht]
    rfl

/-- An operation that reports something and the error of its last outcome. -/
theorem reply_eq (h : image.Represents clauses) {o : Outcome} (ho : o.Blames clauses) (r : Session.Report)
    (m : Machine) : (do
      let e? ← Session.errorOf image.program o
      return ⟨r, e?, m.toState⟩ : Except Abort Session.Reply) = Session.replyOf r o m := by
  rw [h.errorOf_eq ho]
  cases o <;> rfl

theorem apply_step (h : image.Represents clauses) (limit : Nat) (m : Machine) :
    Session.apply image limit m.toState .step =
      Session.replyOf (Machine.stepReport (m.cleared.step clauses).1) (m.cleared.step clauses).1
        (m.cleared.step clauses).2 := by
  have hblames := Machine.step_blames clauses m.cleared
  have hstep : image.step m.toState.cleared = _ := h.step_eq m.cleared
  rw [Session.apply, hstep]
  generalize m.cleared.step clauses = result at hblames
  obtain ⟨o, m'⟩ := result
  dsimp only at hblames ⊢
  rw [h.errorOf_eq hblames]
  cases o <;> rfl

theorem apply_steps (h : image.Represents clauses) (limit n : Nat) (m : Machine) :
    Session.apply image limit m.toState (.steps n) =
      Session.replyOf (.counted (m.cleared.stepsFrom clauses 0 n).1) (m.cleared.stepsFrom clauses 0 n).2.1
        (m.cleared.stepsFrom clauses 0 n).2.2 := by
  have hsteps : image.steps n m.toState.cleared = _ := h.stepsFrom_eq 0 n m.cleared
  rw [Session.apply, hsteps]
  exact h.reply_eq (Machine.stepsFrom_blames clauses 0 n m.cleared) _ _

theorem apply_run (h : image.Represents clauses) (limit : Nat) (m : Machine) :
    Session.apply image limit m.toState .run =
      Session.replyOf .silent (m.cleared.stepsFrom clauses 0 limit).2.1
        (m.cleared.stepsFrom clauses 0 limit).2.2 := by
  have hsteps : image.steps limit m.toState.cleared = _ := h.stepsFrom_eq 0 limit m.cleared
  rw [Session.apply, hsteps]
  exact h.reply_eq (Machine.stepsFrom_blames clauses 0 limit m.cleared) _ _

end Image.Represents

/-! ### Sessions -/

namespace Session

variable {image : Image} {clauses : List Clause}

/-- The limit cuts off no run of a session. -/
def Ends (image : Image) (limit : Nat) : State → List Op → Prop
  | _, [] => True
  | s, op :: ops => (op = .run → (image.steps limit s.cleared).2.1 ≠ .more) ∧
    ∀ reply, apply image limit s op = .ok reply → Ends image limit reply.state ops

section Ends

variable {limit : Nat} {s : State} {op : Op} {ops : List Op}

theorem ends_cons_of_error {a : Abort} (h : apply image limit s op = .error a) :
    Ends image limit s (op :: ops) ↔ (op = .run → (image.steps limit s.cleared).2.1 ≠ .more) := by
  rw [Ends, h]
  exact and_iff_left fun reply hreply => nomatch hreply

theorem ends_cons_of_ok {reply : Reply} (h : apply image limit s op = .ok reply) :
    Ends image limit s (op :: ops) ↔
      (op = .run → (image.steps limit s.cleared).2.1 ≠ .more) ∧ Ends image limit reply.state ops := by
  rw [Ends, h]
  refine and_congr_right fun _ => ⟨fun hends => hends reply rfl, fun hends reply' hreply => ?_⟩
  obtain rfl := Except.ok.inj hreply
  exact hends

end Ends

/-! ### Two sessions side by side -/

/-- An operation in two states. A run is cut off in both or in neither, and either both end with the same fault or both
yield replies that are related. -/
structure Matches (image image' : Image) (limit : Nat) (related : Reply → Reply → Prop) (op : Op) (s t : State) :
    Prop where
  cutOff : op = .run → (image'.steps limit t.cleared).2.1 = (image.steps limit s.cleared).2.1
  replies : (∃ a, apply image limit s op = .error a ∧ apply image' limit t op = .error a) ∨
    ∃ r r', apply image limit s op = .ok r ∧ apply image' limit t op = .ok r' ∧ related r r'

section Matches

variable {image' : Image} {limit : Nat} {s t : State} {op : Op} {ops : List Op}

theorem replies_of_replyOf {related : Reply → Reply → Prop} {r r' : Report} {o : Outcome} {m m' : Machine}
    (h : apply image limit s op = replyOf r o m) (h' : apply image' limit t op = replyOf r' o m')
    (hrelated : ∀ e, related ⟨r, e, m.toState⟩ ⟨r', e, m'.toState⟩) :
    (∃ a, apply image limit s op = .error a ∧ apply image' limit t op = .error a) ∨
      ∃ r r', apply image limit s op = .ok r ∧ apply image' limit t op = .ok r' ∧ related r r' := by
  rw [h, h', replyOf, replyOf]
  cases o.error? with
  | error a => exact .inl ⟨a, rfl, rfl⟩
  | ok e => exact .inr ⟨_, _, rfl, rfl, hrelated e⟩

theorem map_cons_congr {g g' : Reply → Reply} {r r' : Reply} {x y : Except Abort (List Reply)} (hr : g' r' = g r)
    (h : y.map (List.map g') = x.map (List.map g)) :
    (y.map (r' :: ·)).map (List.map g') = (x.map (r :: ·)).map (List.map g) := by
  cases x with
  | error a =>
    cases y with
    | error a' => exact h
    | ok rs' => cases h
  | ok rs =>
    cases y with
    | error a' => cases h
    | ok rs' => exact congrArg Except.ok (congrArg₂ List.cons hr (Except.ok.inj h))

/-- Two sessions whose operations match one by one, as long as their states are related. What `R` says of two states may
depend on the operations that are still to come. -/
theorem play_matches (R : List Op → State → State → Prop) (g g' : Reply → Reply)
    (hop : ∀ op ops s t, R (op :: ops) s t →
      Matches image image' limit (fun r r' => g' r' = g r ∧ R ops r.state r'.state) op s t) (h : R ops s t) :
    (play image' limit t ops).map (List.map g') = (play image limit s ops).map (List.map g) ∧
      (Ends image' limit t ops ↔ Ends image limit s ops) := by
  induction ops generalizing s t with
  | nil => exact ⟨rfl, Iff.rfl⟩
  | cons op ops ih =>
    obtain ⟨hcut, hreplies⟩ := hop op ops s t h
    have hends : (op = .run → (image'.steps limit t.cleared).2.1 ≠ .more) ↔
        (op = .run → (image.steps limit s.cleared).2.1 ≠ .more) :=
      forall_congr' fun hrun => by rw [hcut hrun]
    rcases hreplies with ⟨a, ha, ha'⟩ | ⟨r, r', hr, hr', hrelated, hnext⟩
    · rw [play_cons_of_error ha, play_cons_of_error ha', ends_cons_of_error ha, ends_cons_of_error ha']
      exact ⟨rfl, hends⟩
    · obtain ⟨hplay, hrest⟩ := ih hnext
      rw [play_cons_of_ok hr, play_cons_of_ok hr', ends_cons_of_ok hr, ends_cons_of_ok hr']
      exact ⟨map_cons_congr hrelated hplay, and_congr hends hrest⟩

end Matches

/-! ### Sessions of the structural machine -/

/-- An operation that is not cut off is one of the structural machine. -/
theorem exists_performs (h : image.Represents clauses) {limit : Nat} {m : Machine} {op : Op}
    (hrun : op = .run → (image.steps limit m.toState.cleared).2.1 ≠ .more) :
    ∃ r o m', m.Performs clauses op r o m' ∧ apply image limit m.toState op = replyOf r o m' := by
  cases op with
  | step => exact ⟨_, _, _, .step rfl, h.apply_step limit m⟩
  | steps n => exact ⟨_, _, _, .steps rfl, h.apply_steps limit n m⟩
  | run =>
    have hsteps : image.steps limit m.toState.cleared = _ := h.stepsFrom_eq 0 limit m.cleared
    have hmore := hrun rfl
    rw [hsteps] at hmore
    exact ⟨_, _, _, .run (Machine.runsTo_of_stepsFrom rfl hmore), h.apply_run limit m⟩
  | feed text => exact ⟨_, _, _, .feed m text, rfl⟩
  | table => exact ⟨_, _, _, .table m, rfl⟩

/-- An operation of the structural machine is one that no limit from some number on cuts off. -/
theorem exists_limit_of_performs (h : image.Represents clauses) {m m' : Machine} {op : Op} {r : Report}
    {o : Outcome} (hop : m.Performs clauses op r o m') : ∃ n, ∀ limit, n ≤ limit →
      (op = .run → (image.steps limit m.toState.cleared).2.1 ≠ .more) ∧
        apply image limit m.toState op = replyOf r o m' := by
  cases hop with
  | step hstep =>
    refine ⟨0, fun limit _ => ⟨(nomatch ·), ?_⟩⟩
    rw [h.apply_step, hstep]
  | steps hsteps =>
    refine ⟨0, fun limit _ => ⟨(nomatch ·), ?_⟩⟩
    rw [h.apply_steps, hsteps]
  | run hrun =>
    obtain ⟨ho, n, hn⟩ := Machine.exists_limit_of_runsTo hrun
    refine ⟨n, fun limit hlimit => ?_⟩
    obtain ⟨k, hk⟩ := hn limit hlimit 0
    have hsteps : image.steps limit m.toState.cleared = _ := h.stepsFrom_eq 0 limit m.cleared
    rw [h.apply_run, hsteps, hk]
    exact ⟨fun _ => ho, rfl⟩
  | feed => exact ⟨0, fun limit _ => ⟨(nomatch ·), rfl⟩⟩
  | table => exact ⟨0, fun limit _ => ⟨(nomatch ·), rfl⟩⟩

/-- A session whose runs are not cut off is one of the structural machine. -/
theorem plays_of_ends (h : image.Represents clauses) {limit : Nat} {m : Machine} {ops : List Op}
    (hends : Ends image limit m.toState ops) : m.Plays clauses ops (play image limit m.toState ops) := by
  induction ops generalizing m with
  | nil => exact .nil m
  | cons op ops ih =>
    obtain ⟨r, o, m', hop, happly⟩ := exists_performs h hends.1
    cases ho : o.error? with
    | error a =>
      rw [replyOf, ho] at happly
      rw [play_cons_of_error happly]
      exact .abort hop ho
    | ok e =>
      rw [replyOf, ho] at happly
      rw [play_cons_of_ok happly]
      exact .cons hop ho (ih ((ends_cons_of_ok happly).1 hends).2)

/-- A session of the structural machine is one that no limit from some number on cuts off. -/
theorem exists_limit_of_plays (h : image.Represents clauses) {m : Machine} {ops : List Op}
    {result : Except Abort (List Reply)} (hplays : m.Plays clauses ops result) :
    ∃ n, ∀ limit, n ≤ limit → Ends image limit m.toState ops ∧ play image limit m.toState ops = result := by
  induction hplays with
  | nil m => exact ⟨0, fun limit _ => ⟨trivial, rfl⟩⟩
  | @abort m m' op ops r o a hop ho =>
    obtain ⟨n, hn⟩ := exists_limit_of_performs h hop
    refine ⟨n, fun limit hlimit => ?_⟩
    obtain ⟨hrun, happly⟩ := hn limit hlimit
    rw [replyOf, ho] at happly
    exact ⟨(ends_cons_of_error happly).2 hrun, play_cons_of_error happly⟩
  | @cons m m' op ops r o e replies hop ho _ ih =>
    -- One limit must do for this operation and for all later ones.
    obtain ⟨n₁, hn₁⟩ := exists_limit_of_performs h hop
    obtain ⟨n₂, hn₂⟩ := ih
    refine ⟨max n₁ n₂, fun limit hlimit => ?_⟩
    obtain ⟨hrun, happly⟩ := hn₁ limit (by omega)
    obtain ⟨hends, hplay⟩ := hn₂ limit (by omega)
    rw [replyOf, ho] at happly
    refine ⟨(ends_cons_of_ok happly).2 ⟨hrun, hends⟩, ?_⟩
    rw [play_cons_of_ok happly, hplay]

/-- A source text that parses means one list of plain lines. Its image is built, and its sessions that end are
those of the structural machine with these lines, with the same replies. -/
theorem play_iff_plays {source : List Char} {p : Program} (hp : Program.parse source = .ok p) :
    ∃ clauses image, p.source = source ∧ p.Means clauses ∧
      (∀ clauses', p.Means clauses' → clauses' = clauses) ∧ Image.ofProgram p = .ok image ∧
      ∀ console seed ops result,
        (∃ limit, Ends image limit (State.initial console seed) ops ∧
          play image limit (State.initial console seed) ops = result) ↔
        (Machine.initial console seed).Plays clauses ops result := by
  -- The derivation gives the plain lines, and the layout of the arena shows them.
  obtain ⟨rfl, lines, hlines⟩ := Program.parse_eq_ok_iff.1 hp
  obtain ⟨clauses, hclauses⟩ := hlines.exists_means
  obtain ⟨image, himage, -, h⟩ := hclauses.exists_image
  refine ⟨clauses, image, rfl, hclauses, fun _ h' => h'.unique hclauses, himage, ?_⟩
  intro console seed ops result
  rw [← Machine.toState_initial]
  constructor
  · rintro ⟨limit, hends, rfl⟩
    exact plays_of_ends h hends
  · intro hplays
    obtain ⟨n, hn⟩ := exists_limit_of_plays h hplays
    exact ⟨n, hn n (Nat.le_refl n)⟩

theorem play_iff_plays_sample : ∃ p, Program.parse Program.sample = .ok p ∧
    ∃ clauses image, p.source = Program.sample ∧ p.Means clauses ∧
      (∀ clauses', p.Means clauses' → clauses' = clauses) ∧ Image.ofProgram p = .ok image ∧
      ∀ console seed ops result,
        (∃ limit, Ends image limit (State.initial console seed) ops ∧
          play image limit (State.initial console seed) ops = result) ↔
        (Machine.initial console seed).Plays clauses ops result := by
  obtain ⟨p, hp⟩ := Program.exists_parse_sample
  exact ⟨p, hp, play_iff_plays hp⟩

end Session

end LineBasic

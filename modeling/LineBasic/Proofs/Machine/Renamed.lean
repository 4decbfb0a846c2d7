import Mathlib.Logic.Equiv.Basic
import LineBasic.Proofs.Machine.Refinement
import LineBasic.Proofs.Token.Renamed

/-!
# Variables are interchangeable

The variables of a program are rooms of one store, and nothing but the letter says which room is meant. If the letters
of a program are permuted, the program does the same with the rooms permuted: it prints, asks, jumps and fails as
before.

## Main definitions

* `Expr.renamed`, `Item.renamed`, `Stmt.renamed`, `Clause.renamed`: trees with other variables.
* `Machine.renamed`, `State.renamed`: the rooms of the store, permuted.
* `Run.Renames`: two computations that do the same with the rooms permuted.
* `Session.Reply.renamed`: a reply with the rooms permuted.

## Main results

* `Program.Means.renamed`: the plain lines of a program with other letters.
* `Machine.step_renamed`, `Machine.stepsFrom_renamed`: the steps of the structural machine.
* `Session.play_renamed`: sessions.
* `Program.parse_renamedText`: what becomes of a program when its letters are permuted.
-/

namespace LineBasic

/-! ### Trees -/

/-- An expression with other variables. -/
def Expr.renamed (f : Letter → Letter) : {l : Level} → PlainExpr l → PlainExpr l
  | _, .var v => .var (f v)
  | _, .number n => .number n
  | _, .group e => .group (e.renamed f)
  | _, .abs mark e => .abs mark (e.renamed f)
  | _, .rnd mark e => .rnd mark (e.renamed f)
  | _, .mod mark e₁ e₂ => .mod mark (e₁.renamed f) (e₂.renamed f)
  | _, .factor a => .factor (a.renamed f)
  | _, .scale p o a => .scale (p.renamed f) o (a.renamed f)
  | _, .signed s p => .signed s (p.renamed f)
  | _, .add e s p => .add (e.renamed f) s (p.renamed f)

/-- An item of PRINT with other variables. -/
def Item.renamed (f : Letter → Letter) : PlainItem → PlainItem
  | .text s => .text s
  | .value e => .value (e.renamed f)

/-- A statement with other variables. -/
def Stmt.renamed (f : Letter → Letter) : PlainStmt → PlainStmt
  | .print mark item more => .print mark (item.renamed f) (more.map (Item.renamed f))
  | .input mark v more => .input mark (f v) (more.map f)
  | .assign v e => .assign (f v) (e.renamed f)
  | .branch mark e₁ r relation e₂ body => .branch mark (e₁.renamed f) r relation (e₂.renamed f) (body.renamed f)
  | .goto mark e => .goto mark (e.renamed f)
  | .gosub mark e => .gosub mark (e.renamed f)
  | .action mark a => .action mark a

/-- A line with other variables. It keeps its number and its token. -/
def Clause.renamed (f : Letter → Letter) (c : Clause) : Clause :=
  ⟨c.token, ⟨c.line.number, c.line.body.renamed f⟩⟩

section Means

variable {f : Letter → Letter} {w : Lexeme} {ws : List Lexeme} {i : TokenId}

theorem Lexeme.renamed_of_tag_ne (h : w.1 ≠ .var) : renamed f w = w := if_neg h

theorem Lexeme.IsLetter.renamed {v : Letter} (h : w.IsLetter v) : (w.renamed f).IsLetter (f v) := by
  obtain rfl : w = (.var, [v.char]) := h
  rw [Lexeme.renamed, if_pos rfl, IsLetter, List.map_singleton, renamedChar_char]

theorem LexemeAt.renamed {P Q : Lexeme → Prop} (h : LexemeAt ws i P) (hPQ : ∀ w, P w → Q (w.renamed f)) :
    LexemeAt (ws.map (Lexeme.renamed f)) i Q := by
  obtain ⟨w, hw, hP⟩ := h
  exact ⟨w.renamed f, by rw [List.getElem?_map, hw, Option.map_some], hPQ w hP⟩

theorem LexemeAt.hasTag_renamed {t : Tag} (h : LexemeAt ws i (·.HasTag t)) :
    LexemeAt (ws.map (Lexeme.renamed f)) i (·.HasTag t) :=
  h.renamed fun w hw => (Lexeme.renamed_fst f w).trans hw

theorem LexemeAt.isNumeral_renamed {n : Numeral} (h : LexemeAt ws i (·.IsNumeral n)) :
    LexemeAt (ws.map (Lexeme.renamed f)) i (·.IsNumeral n) :=
  h.renamed fun w hw => by
    rw [Lexeme.renamed_of_tag_ne (by rw [hw.1]; nofun)]
    exact hw

theorem LexemeAt.isBody_renamed {s : Body} (h : LexemeAt ws i (·.IsBody s)) :
    LexemeAt (ws.map (Lexeme.renamed f)) i (·.IsBody s) :=
  h.renamed fun w hw => by
    rw [Lexeme.renamed_of_tag_ne (by rw [show w = _ from hw]; nofun)]
    exact hw

theorem VariableMeans.renamed {v : Letter} (h : VariableMeans ws i v) :
    VariableMeans (ws.map (Lexeme.renamed f)) i (f v) :=
  LexemeAt.renamed h fun _ hw => hw.renamed

theorem Expr.Means.renamed {l : Level} {e : ParsedExpr l} {e' : PlainExpr l} (h : e.Means ws e') :
    e.Means (ws.map (Lexeme.renamed f)) (e'.renamed f) := by
  induction h with
  | var h => exact .var (VariableMeans.renamed h)
  | number h => exact .number h.isNumeral_renamed
  | group _ ih => exact .group ih
  | abs hmark _ ih => exact .abs hmark.hasTag_renamed ih
  | rnd hmark _ ih => exact .rnd hmark.hasTag_renamed ih
  | mod hmark _ _ ih₁ ih₂ => exact .mod hmark.hasTag_renamed ih₁ ih₂
  | factor _ ih => exact .factor ih
  | scale o _ _ ihp iha => exact .scale o ihp iha
  | signed s _ ih => exact .signed s ih
  | add s _ _ ihe ihp => exact .add s ihe ihp

theorem Item.Means.renamed {item : ParsedItem} {item' : PlainItem} (h : item.Means ws item') :
    item.Means (ws.map (Lexeme.renamed f)) (item'.renamed f) := by
  cases h with
  | text h => exact .text h.isBody_renamed
  | value he => exact .value he.renamed

theorem Stmt.Means.renamed {s : ParsedStmt} {s' : PlainStmt} (h : s.Means ws s') :
    s.Means (ws.map (Lexeme.renamed f)) (s'.renamed f) := by
  induction h with
  | print hmark hitem hmore =>
    exact .print hmark.hasTag_renamed hitem.renamed
      (List.forall₂_map_right_iff.2 (hmore.imp fun _ _ h => h.renamed))
  | input hmark hv hmore =>
    exact .input hmark.hasTag_renamed hv.renamed (List.forall₂_map_right_iff.2 (hmore.imp fun _ _ h => h.renamed))
  | assign hv he => exact .assign hv.renamed he.renamed
  | branch hmark hrelation he₁ he₂ _ ih =>
    exact .branch hmark.hasTag_renamed hrelation.hasTag_renamed he₁.renamed he₂.renamed ih
  | goto hmark he => exact .goto hmark.hasTag_renamed he.renamed
  | gosub hmark he => exact .gosub hmark.hasTag_renamed he.renamed
  | action hmark => exact .action hmark.hasTag_renamed

theorem Clause.MeantBy.renamed {line : ParsedLine} {c : Clause} (h : c.MeantBy ws line) :
    (c.renamed f).MeantBy (ws.map (Lexeme.renamed f)) line := by
  obtain ⟨token, number, body⟩ := c
  obtain ⟨hline, htoken⟩ := h
  refine ⟨?_, htoken⟩
  cases hline with
  | naked hs => exact .naked hs.renamed
  | marked hn hs => exact .marked hn.isNumeral_renamed hs.renamed

/-- A program with other letters at its variables has the same tokens and the same tree, and its plain lines have other
variables. -/
theorem Program.Means.renamed {p : Program} {clauses : List Clause} (h : p.Means clauses) :
    ({ p with source := renamedText f p.tokens.toList p.source } : Program).Means
      (clauses.map (Clause.renamed f)) := by
  obtain ⟨lines, ⟨front, eof, hscan, htokens, hlines, harena⟩, hclauses⟩ := h
  have htokens' : p.tokens.toList = front ++ [eof] := by rw [htokens]
  obtain ⟨hscan', hlexemes⟩ := scan_renamedText f hscan
  rw [← htokens'] at hscan' hlexemes
  refine ⟨lines, ⟨front, eof, htokens' ▸ hscan', htokens, hlines, harena⟩, List.forall₂_map_right_iff.2 ?_⟩
  rw [lexemes, hlexemes]
  exact hclauses.imp fun _ _ h => h.renamed

end Means

/-! ### Machines -/

/-- A store with its rooms permuted: what was in a room is in the one that the permutation leads to. -/
@[irreducible] def renamedStore {α : Type} (σ : Equiv.Perm Letter) (store : Vector α letterCount) :
    Vector α letterCount :=
  Vector.ofFn fun v => store.get (σ.symm v)

/-- A machine with the rooms of its store permuted. -/
def Machine.renamed (σ : Equiv.Perm Letter) (m : Machine) : Machine := { m with store := renamedStore σ m.store }

/-- A state with the rooms of its store permuted. -/
def State.renamed (σ : Equiv.Perm Letter) (s : State) : State := { s with store := renamedStore σ s.store }

/-- The second computation does to a machine with the rooms permuted what the first one does to the machine, and yields
the same. -/
def Run.Renames {α : Type} (σ : Equiv.Perm Letter) (y y' : Run α) : Prop :=
  ∀ m : Machine, y' (m.renamed σ) = ((y m).1, (y m).2.renamed σ)

section Store

variable {α : Type} {σ : Equiv.Perm Letter}

theorem getElem_renamedStore (store : Vector α letterCount) {i : Nat} (hi : i < letterCount) :
    (renamedStore σ store)[i] = store[(σ.symm ⟨i, hi⟩).val] := by
  simp [renamedStore, Vector.get]

theorem get_renamedStore (σ : Equiv.Perm Letter) (store : Vector α letterCount) (v : Letter) :
    (renamedStore σ store).get (σ v) = store.get v := by
  show (renamedStore σ store)[(σ v).val] = store[v.val]
  rw [getElem_renamedStore]
  simp

theorem map_renamedStore {β : Type} (g : α → β) (store : Vector α letterCount) :
    (renamedStore σ store).map g = renamedStore σ (store.map g) := by
  ext i hi
  rw [Vector.getElem_map, getElem_renamedStore, getElem_renamedStore, Vector.getElem_map]

theorem renamedStore_set (store : Vector α letterCount) (v : Letter) (a : α) :
    renamedStore σ (store.set v a v.isLt) = (renamedStore σ store).set (σ v) a (σ v).isLt := by
  ext i hi
  have hroom : v.val = (σ.symm ⟨i, hi⟩).val ↔ (σ v).val = i := by
    rw [← Fin.ext_iff, Equiv.eq_symm_apply, Fin.ext_iff]
  rw [getElem_renamedStore, Vector.getElem_set, Vector.getElem_set, getElem_renamedStore]
  simp only [hroom]

theorem renamedStore_replicate (a : α) : renamedStore σ (Vector.replicate letterCount a) = Vector.replicate _ a := by
  ext i hi
  rw [getElem_renamedStore, Vector.getElem_replicate, Vector.getElem_replicate]

theorem Machine.toState_renamed (m : Machine) : (m.renamed σ).toState = m.toState.renamed σ := by
  rw [State.renamed, toState, toState, Machine.renamed, map_renamedStore]

theorem Machine.initial_renamed (console : Console) (seed : Int) :
    (initial console seed).renamed σ = initial console seed := by
  rw [Machine.renamed, initial, renamedStore_replicate]

end Store

namespace Run.Renames

variable {α β : Type} {σ : Equiv.Perm Letter} {y y' : Run α}

theorem pure (a : α) : Renames σ (Pure.pure a) (Pure.pure a) := fun _ => rfl

theorem bind {g g' : α → Run β} (h : Renames σ y y') (hg : ∀ a, Renames σ (g a) (g' a)) :
    Renames σ (y >>= g) (y' >>= g') := by
  intro m
  rw [bind_apply, bind_apply, h m]
  rcases y m with ⟨e | a, m'⟩
  · rfl
  · exact hg a m'

theorem mapM {ι : Type} {r : ι → ι} {g g' : ι → Run α} (as : List ι) (h : ∀ a, Renames σ (g a) (g' (r a))) :
    Renames σ (as.mapM g) ((as.map r).mapM g') := by
  induction as with
  | nil => exact pure []
  | cons a as ih =>
    rw [List.map_cons, List.mapM_cons, List.mapM_cons]
    exact (h a).bind fun b => ih.bind fun bs => pure (b :: bs)

theorem forM {ι : Type} {r : ι → ι} {g g' : ι → Run Unit} (as : List ι) (h : ∀ a, Renames σ (g a) (g' (r a))) :
    Renames σ (as.forM g) ((as.map r).forM g') := by
  induction as with
  | nil => exact pure ()
  | cons a as ih => exact (h a).bind fun _ => ih

theorem stop (r : Reason) : Renames σ (Run.stop r : Run α) (Run.stop r) := fun _ => rfl

theorem require (x : Except Reason α) : Renames σ (Run.require x) (Run.require x) := by
  cases x with
  | error r => exact stop r
  | ok a => exact pure a

theorem modify {g g' : Machine → Machine} (h : ∀ m, g' (m.renamed σ) = (g m).renamed σ) :
    Renames σ (modify g : Run Unit) (modify g') := fun m => Prod.ext rfl (h m)

theorem load (v : Letter) : Renames σ (Run.load v) (Run.load (σ v)) := fun m =>
  Prod.ext (congrArg Except.ok (get_renamedStore σ m.store v)) rfl

theorem update (v : Letter) (w : Word) : Renames σ (Run.update v w) (Run.update (σ v) w) := by
  refine modify fun m => ?_
  rw [Machine.renamed, Machine.renamed, renamedStore_set]

theorem look {x x' : Machine → Run α} (h : ∀ m, x' (m.renamed σ) (m.renamed σ) = ((x m m).1, (x m m).2.renamed σ)) :
    Renames σ (get >>= x) (get >>= x') := h

theorem random (limit : Word) : Renames σ (Run.random limit) (Run.random limit) := by
  intro m
  rw [Run.random, Run.random]
  split
  · rename_i n g h
    split
    · rename_i n' g' h'
      cases h.symm.trans h'
      rfl
    · rename_i g' h'
      cases h.symm.trans h'
  · rename_i g h
    split
    · rename_i n' g' h'
      cases h.symm.trans h'
    · rename_i g' h'
      cases h.symm.trans h'
      rfl

theorem put (text : String) : Renames σ (Run.put text) (Run.put text) := by
  intro m
  have hconsole : (m.renamed σ).console = m.console := rfl
  rw [Run.put, Run.put, hconsole]
  rcases m.console.print text with ⟨r, c⟩
  rfl

theorem ask : Renames σ Run.ask Run.ask := by
  intro m
  rw [Run.ask, Run.ask]
  split
  · rename_i n c h
    split
    · rename_i n' c' h'
      cases h.symm.trans h'
      rfl
    · rename_i e' c' h'
      cases h.symm.trans h'
  · rename_i e c h
    split
    · rename_i n' c' h'
      cases h.symm.trans h'
    · rename_i e' c' h'
      cases h.symm.trans h'
      rfl

theorem goTo (position : Nat) : Renames σ (Run.goTo position) (Run.goTo position) := modify fun _ => rfl

theorem save : Renames σ Run.save Run.save := by
  refine look fun m => ?_
  have hstack : (m.renamed σ).stack = m.stack := rfl
  by_cases hfull : m.stack.length = maxStack
  · rw [hstack, if_pos hfull]
    rfl
  · rw [hstack, if_neg hfull]
    rfl

theorem restore : Renames σ Run.restore Run.restore := by
  refine look fun m => ?_
  obtain ⟨store, stack, position, errors, console, generator⟩ := m
  cases stack with
  | nil => rfl
  | cons position stack => rfl

theorem jump (table : Int → Option Nat) (n : Word) : Renames σ (Run.jump table n) (Run.jump table n) := by
  rw [Run.jump]
  cases table n.val with
  | none => exact stop _
  | some position => exact goTo position

end Run.Renames

/-! ### What programs do -/

section Programs

variable {σ : Equiv.Perm Letter}

theorem Expr.value_renames {l : Level} (e : PlainExpr l) : Run.Renames σ e.value (e.renamed σ).value := by
  induction e with
  | var v => exact .load v
  | number n => exact .pure _
  | group e ih => exact ih
  | abs _ e ih => exact ih.bind fun w => .require _
  | rnd _ e ih => exact ih.bind fun w => .random w
  | mod _ e₁ e₂ ih₁ ih₂ => exact ih₁.bind fun w₁ => ih₂.bind fun w₂ => .require _
  | factor a ih => exact ih
  | scale p o a ihp iha => exact ihp.bind fun w₁ => iha.bind fun w₂ => .require _
  | signed s p ih =>
    cases s with
    | plus => exact ih
    | minus => exact ih.bind fun w => .require _
  | add e s p ihe ihp => exact ihe.bind fun w₁ => ihp.bind fun w₂ => .require _

theorem Item.printed_renames (item : PlainItem) : Run.Renames σ item.printed (item.renamed σ).printed := by
  cases item with
  | text s => exact .pure _
  | value e => exact e.value_renames.bind fun w => .pure _

theorem Comparison.test_renames (r : Comparison) (e₁ e₂ : PlainExpr .sum) :
    Run.Renames σ (r.test e₁ e₂) (r.test (e₁.renamed σ) (e₂.renamed σ)) :=
  e₁.value_renames.bind fun _ => e₂.value_renames.bind fun _ => .pure _

/-- A statement with the letters permuted does the same with the rooms permuted. -/
theorem Stmt.exec_renames (table : Int → Option Nat) (s : PlainStmt) :
    Run.Renames σ (s.exec table) ((s.renamed σ).exec table) := by
  induction s with
  | print _ item more =>
    exact (Run.Renames.mapM (r := Item.renamed σ) (item :: more) Item.printed_renames).bind fun texts => .put _
  | input _ v more =>
    exact Run.Renames.forM (r := σ) (v :: more) fun v => Run.Renames.ask.bind fun w => .update v w
  | assign v e => exact e.value_renames.bind fun w => .update v w
  | branch _ e₁ r _ e₂ body ih =>
    refine (r.test_renames e₁ e₂).bind fun holds => ?_
    cases holds with
    | false => exact .pure ()
    | true => exact ih
  | goto _ e => exact e.value_renames.bind fun w => .jump table w
  | gosub _ e => exact Run.Renames.save.bind fun _ => e.value_renames.bind fun w => .jump table w
  | action _ a =>
    cases a with
    | ret => exact .restore
    | halt => exact .goTo _
    | clear | list | run => exact .stop _

theorem lastNumbered_renamed (wanted : Int) (clauses : List Clause) :
    lastNumbered wanted (clauses.map (Clause.renamed σ)) = lastNumbered wanted clauses := by
  induction clauses with
  | nil => rfl
  | cons c clauses ih =>
    rw [List.map_cons, lastNumbered, lastNumbered, ih]
    rfl

namespace Machine

variable (clauses : List Clause)

/-- A line with the letters permuted does the same with the rooms permuted. -/
theorem step_renamed (m : Machine) : (m.renamed σ).step (clauses.map (Clause.renamed σ)) =
    ((m.step clauses).1, (m.step clauses).2.renamed σ) := by
  have hposition : (m.renamed σ).position = m.position := rfl
  rw [step, step, List.getElem?_map, hposition]
  cases clauses[m.position]? with
  | none => rfl
  | some c =>
    have hexec : (c.renamed σ).line.body.exec (lastNumbered · clauses)
        { m.renamed σ with position := m.position + 1 } = _ :=
      c.line.body.exec_renames (lastNumbered · clauses) { m with position := m.position + 1 }
    dsimp only at hexec
    simp only [Option.map_some, lastNumbered_renamed]
    rw [hexec]
    rcases c.line.body.exec (lastNumbered · clauses) { m with position := m.position + 1 } with ⟨e | u, m'⟩
    · cases e with
      | stopped r => rfl
      | aborted a => rfl
    · rfl

theorem stepsFrom_renamed (done limit : Nat) (m : Machine) :
    (m.renamed σ).stepsFrom (clauses.map (Clause.renamed σ)) done limit =
      ((m.stepsFrom clauses done limit).1, (m.stepsFrom clauses done limit).2.1,
        (m.stepsFrom clauses done limit).2.2.renamed σ) := by
  induction limit generalizing done m with
  | zero => rfl
  | succ limit ih =>
    rw [stepsFrom, stepsFrom, step_renamed]
    rcases m.step clauses with ⟨o, m'⟩
    cases o with
    | more => exact ih (done + 1) m'
    | finished | failed e | aborted a => rfl

end Machine

end Programs

/-! ### Sessions -/

namespace Session

/-- A report with the table of another state, if it shows a table. -/
def Report.showing (s : State) : Report → Report
  | .shown _ => .shown s.table
  | .stepped more => .stepped more
  | .counted done => .counted done
  | .silent => .silent

/-- A reply with the rooms permuted. A table that it shows is that of the state with the rooms permuted. -/
def Reply.renamed (σ : Equiv.Perm Letter) (reply : Reply) : Reply :=
  ⟨reply.report.showing (reply.state.renamed σ), reply.error, reply.state.renamed σ⟩

variable {σ : Equiv.Perm Letter} {image image' : Image} {clauses : List Clause}

theorem showing_stepReport (s : State) (o : Outcome) :
    (Machine.stepReport o).showing s = Machine.stepReport o := by
  cases o <;> rfl

/-- An operation on the program with the letters permuted. -/
theorem exists_apply_renamed (h : image.Represents clauses) (h' : image'.Represents (clauses.map (Clause.renamed σ)))
    (limit : Nat) (m : Machine) (op : Op) : ∃ r o m', apply image limit m.toState op = replyOf r o m' ∧
      apply image' limit (m.renamed σ).toState op = replyOf (r.showing (m'.renamed σ).toState) o (m'.renamed σ) := by
  have hcleared : (m.renamed σ).cleared = m.cleared.renamed σ := rfl
  cases op with
  | step =>
    refine ⟨_, _, _, h.apply_step limit m, ?_⟩
    rw [h'.apply_step, hcleared, Machine.step_renamed, showing_stepReport]
  | steps n =>
    refine ⟨_, _, _, h.apply_steps limit n m, ?_⟩
    rw [h'.apply_steps, hcleared, Machine.stepsFrom_renamed]
    rfl
  | run =>
    refine ⟨_, _, _, h.apply_run limit m, ?_⟩
    rw [h'.apply_run, hcleared, Machine.stepsFrom_renamed]
    rfl
  | feed text => exact ⟨.silent, .finished, { m.cleared with console := m.cleared.console.feed text }, rfl, rfl⟩
  | table => exact ⟨.shown m.toState.table, .finished, m.cleared, rfl, rfl⟩

/-- A session with the letters permuted is the session with the rooms permuted. -/
theorem play_renamed (h : image.Represents clauses) (h' : image'.Represents (clauses.map (Clause.renamed σ)))
    (limit : Nat) (ops : List Op) (m : Machine) :
    play image' limit (m.renamed σ).toState ops =
        (play image limit m.toState ops).map (List.map (Reply.renamed σ)) ∧
      (Ends image' limit (m.renamed σ).toState ops ↔ Ends image limit m.toState ops) := by
  suffices hmatches : (play image' limit (m.renamed σ).toState ops).map (List.map id) =
        (play image limit m.toState ops).map (List.map (Reply.renamed σ)) ∧
      (Ends image' limit (m.renamed σ).toState ops ↔ Ends image limit m.toState ops) by
    rwa [List.map_id_fun, Except.map_id] at hmatches
  refine play_matches (fun _ s t => ∃ m : Machine, s = m.toState ∧ t = (m.renamed σ).toState) (Reply.renamed σ) id ?_
    ⟨m, rfl, rfl⟩
  rintro op ops _ _ ⟨m, rfl, rfl⟩
  obtain ⟨r, o, m', happly, happly'⟩ := exists_apply_renamed h h' limit m op
  refine ⟨fun _ => ?_, replies_of_replyOf happly happly' fun e => ⟨?_, m', rfl, rfl⟩⟩
  · have hsteps : image.steps limit m.toState.cleared = _ := h.stepsFrom_eq 0 limit m.cleared
    have hsteps' : image'.steps limit (m.renamed σ).toState.cleared = _ :=
      h'.stepsFrom_eq 0 limit (m.cleared.renamed σ)
    rw [hsteps, hsteps', Machine.stepsFrom_renamed]
  · rw [Reply.renamed, Machine.toState_renamed]
    rfl

end Session

/-! ### Programs with the letters permuted -/

/-- If the letters at the variables of a program are permuted, the text has the same tokens and the same tree, and all
sessions are the same, with the rooms of the store permuted in every state. -/
theorem Program.parse_renamedText {source : List Char} {p : Program} (h : Program.parse source = .ok p)
    (σ : Equiv.Perm Letter) : ∃ p', Program.parse (renamedText σ p.tokens.toList source) = .ok p' ∧
      p'.tokens = p.tokens ∧ p'.arena = p.arena ∧
      ∃ image image', Image.ofProgram p = .ok image ∧ Image.ofProgram p' = .ok image' ∧
        ∀ limit console seed ops,
          Session.play image' limit (State.initial console seed) ops =
            (Session.play image limit (State.initial console seed) ops).map (List.map (Session.Reply.renamed σ)) ∧
          (Session.Ends image' limit (State.initial console seed) ops ↔
            Session.Ends image limit (State.initial console seed) ops) := by
  obtain ⟨rfl, lines, hlines⟩ := parse_eq_ok_iff.1 h
  obtain ⟨clauses, hmeans⟩ := hlines.exists_means
  have hmeans' := hmeans.renamed (f := σ)
  have ⟨lines', hlines', _⟩ := hmeans'
  obtain ⟨image, himage, -, hrep⟩ := hmeans.exists_image
  obtain ⟨image', himage', -, hrep'⟩ := hmeans'.exists_image
  refine ⟨_, parse_eq_ok_iff.2 ⟨rfl, lines', hlines'⟩, rfl, rfl, image, image', himage, himage', ?_⟩
  intro limit console seed ops
  have hplay := Session.play_renamed hrep hrep' limit ops (Machine.initial console seed)
  rwa [Machine.initial_renamed, Machine.toState_initial] at hplay

/-- The letters A and Z are swapped. Keywords, a string and a remark stay as they are. -/
theorem Program.parse_renamedText_swap : ∃ p p' image image',
    Program.parse "10 INPUT A,B\n20IF A<Z THEN PRINT\"A Z\",Z\n30PRINT RND(Z)-A REM A\n".toList = .ok p ∧
      Program.parse "10 INPUT Z,B\n20IF Z<A THEN PRINT\"A Z\",A\n30PRINT RND(A)-Z REM A\n".toList = .ok p' ∧
      p'.tokens = p.tokens ∧ p'.arena = p.arena ∧ Image.ofProgram p = .ok image ∧ Image.ofProgram p' = .ok image' ∧
      ∀ limit console seed ops, Session.play image' limit (State.initial console seed) ops =
        (Session.play image limit (State.initial console seed) ops).map
          (List.map (Session.Reply.renamed (Equiv.swap ⟨0, by decide⟩ ⟨25, by decide⟩))) := by
  let swap : Equiv.Perm Letter := Equiv.swap ⟨0, by decide⟩ ⟨25, by decide⟩
  have hok : (Program.parse "10 INPUT A,B\n20IF A<Z THEN PRINT\"A Z\",Z\n30PRINT RND(Z)-A REM A\n".toList).toOption.any
      (fun p => renamedText swap p.tokens.toList p.source =
        "10 INPUT Z,B\n20IF Z<A THEN PRINT\"A Z\",A\n30PRINT RND(A)-Z REM A\n".toList) := by decide +kernel
  obtain ⟨p, hp, htext⟩ := exists_ok_of_any hok
  obtain ⟨p', hp', htokens, harena, image, image', himage, himage', hplay⟩ := parse_renamedText hp swap
  obtain ⟨hsource, -⟩ := parse_eq_ok_iff.1 hp
  rw [← hsource, of_decide_eq_true htext] at hp'
  exact ⟨p, p', image, image', hp, hp', htokens, harena, himage, himage', fun limit console seed ops =>
    (hplay limit console seed ops).1⟩

end LineBasic

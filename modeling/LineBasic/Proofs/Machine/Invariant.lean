import LineBasic.Proofs.Machine.Kinds
import LineBasic.Proofs.Machine.Safety

/-!
# The state of a session

Whatever a session does with a well-kinded program, the variables hold numbers of sixteen bits, GOSUB has saved
positions of the program, sixteen at most, and the present position is one of the program or its end. Errors change
nothing about that, nor does input or output that fails.

## Main definitions

* `State.InOrder`: what holds of a state between steps.
* `Execution.Ensures`: triples of a precondition, a computation and what holds after it, also if it halts.

## Main results

* `Image.ensures_value`: nodes with values change the generator only, and their values fit.
* `Image.ensures_statement`, `Image.step_inOrder`: statements and steps keep the state in order.
* `Program.session_inOrder`: sessions.
-/

namespace LineBasic

open Execution
open Program (reference)

/-- A value that a variable can hold: a number of sixteen bits. -/
def Value.Fits : Value → Prop
  | .number n => InRange n
  | .nothing => False

/-- All variables hold numbers of sixteen bits. -/
def State.VariablesFit (s : State) : Prop := ∀ l, (s.store.get l).Fits

/-- What holds of the state of a program with a number of lines. -/
structure State.InOrder (lines : Nat) (s : State) : Prop where
  store : s.VariablesFit
  room : s.stack.length ≤ maxStack
  saved : ∀ position ∈ s.stack, 0 < position ∧ position ≤ lines
  counter : s.counter ≤ lines ∨ s.counter = endPosition

/-- What holds while a line is executed, until the present position changes: that is the position behind the line. -/
structure State.InLine (lines : Nat) (s : State) : Prop extends s.InOrder lines where
  behind : 0 < s.counter ∧ s.counter ≤ lines

/-! ### Triples for computations -/

/-- From states with `pre` the computation leads to states with `post`, also if it halts, and what it yields has a
property. -/
def Execution.Ensures {α : Type} (pre post : State → Prop) (x : Execution α) (yields : α → Prop) : Prop :=
  ∀ s, pre s → post (x s).2 ∧ ∀ a, (x s).1 = .ok a → yields a

namespace Execution.Ensures

variable {α β : Type} {pre post : State → Prop} {x : Execution α} {P : α → Prop} {Q : β → Prop}

theorem pure (h : ∀ s, pre s → post s) {a : α} (ha : P a) : Ensures pre post (Pure.pure a : Execution α) P := by
  intro s hs
  refine ⟨h s hs, fun a' ha' => ?_⟩
  cases ha'
  exact ha

theorem throw (h : ∀ s, pre s → post s) (e : Halt) : Ensures pre post (MonadExcept.throw e : Execution α) P :=
  fun s hs => ⟨h s hs, fun a ha => by cases ha⟩

theorem stop (h : ∀ s, pre s → post s) (r : Reason) : Ensures pre post (Execution.stop r : Execution α) P :=
  throw h _

theorem require (h : ∀ s, pre s → post s) {y : Except Reason α} (hy : ∀ a, y = .ok a → P a) :
    Ensures pre post (Execution.require y) P := by
  cases y with
  | error r => exact stop h r
  | ok a => exact pure h (hy a rfl)

/-- What is looked up is known afterwards. -/
theorem look_bind {y : Except Fault α} {f : α → Execution β} (h : ∀ s, pre s → post s)
    (hf : ∀ a, y = .ok a → Ensures pre post (f a) Q) : Ensures pre post (Execution.look y >>= f) Q := by
  cases y with
  | error e => exact throw h _
  | ok a => exact hf a rfl

/-- What halts after the first part is what halts after both. -/
theorem bind {mid : State → Prop} {f : α → Execution β} (h : ∀ s, mid s → post s) (hx : Ensures pre mid x P)
    (hf : ∀ a, P a → Ensures mid post (f a) Q) : Ensures pre post (x >>= f) Q := by
  intro s hs
  obtain ⟨hmid, hP⟩ := hx s hs
  rw [bind_apply]
  generalize x s = result at hmid hP
  rcases result with ⟨e | a, s'⟩
  · exact ⟨h s' hmid, fun a ha => by cases ha⟩
  · exact hf a (hP a rfl) s' hmid

theorem mapM {f : β → Execution α} {bs : List β} (h : ∀ b ∈ bs, Ensures pre pre (f b) P) :
    Ensures pre pre (bs.mapM f) fun as => ∀ a ∈ as, P a := by
  induction bs with
  | nil => exact pure (fun _ => id) fun _ ha => (List.not_mem_nil ha).elim
  | cons b bs ih =>
    obtain ⟨hb, hbs⟩ := List.forall_mem_cons.1 h
    rw [List.mapM_cons]
    refine bind (fun _ => id) hb fun a ha => bind (fun _ => id) (ih hbs) fun as has => ?_
    exact pure (fun _ => id) (List.forall_mem_cons.2 ⟨ha, has⟩)

theorem foldlM {f : α → β → Execution α} {bs : List β} (h : ∀ b ∈ bs, ∀ a, P a → Ensures pre pre (f a b) P) {a : α}
    (ha : P a) : Ensures pre pre (bs.foldlM f a) P := by
  induction bs generalizing a with
  | nil => exact pure (fun _ => id) ha
  | cons b bs ih =>
    obtain ⟨hb, hbs⟩ := List.forall_mem_cons.1 h
    rw [List.foldlM_cons]
    exact bind (fun _ => id) (hb a ha) fun a' ha' => ih hbs ha'

theorem forM {f : β → Execution Unit} {bs : List β} (h : ∀ b ∈ bs, Ensures pre pre (f b) fun _ => True) :
    Ensures pre pre (bs.forM f) fun _ => True := by
  induction bs with
  | nil => exact pure (fun _ => id) trivial
  | cons b bs ih =>
    obtain ⟨hb, hbs⟩ := List.forall_mem_cons.1 h
    exact bind (fun _ => id) hb fun _ _ => ih hbs

theorem modify {f : State → State} (h : ∀ s, pre s → post (f s)) :
    Ensures pre post (modify f : Execution Unit) fun _ => True :=
  fun s hs => ⟨h s hs, fun _ _ => trivial⟩

end Execution.Ensures

/-! ### Values -/

theorem InRange.truth (b : Bool) : InRange (truth b) := by
  cases b <;> decide

section Values

/-- A property of states that says that the variables fit and nothing about the generator. -/
structure State.Framed (I : State → Prop) : Prop where
  store : ∀ s, I s → s.VariablesFit
  generator : ∀ s g, I s → I { s with generator := g }

variable {I : State → Prop} {image : Image} {i : NodeId} {n : Node}

theorem Execution.ensures_draw (hI : State.Framed I) {limit : Nat} (hlimit : limit ≤ 32767) :
    Ensures I I (draw limit) InRange := by
  intro s hs
  rw [Mirrors.draw_apply]
  split
  · rename_i n g hbelow
    refine ⟨hI.generator s g hs, fun a ha => ?_⟩
    cases ha
    have hlt := Generator.drawBelow_lt hbelow
    constructor <;> omega
  · rename_i g hbelow
    exact ⟨hI.generator s g hs, fun a ha => by cases ha⟩

theorem Value.Fits.of_toInt {v : Value} (h : v.Fits) {n : Int} (hn : v.toInt = .ok n) : InRange n := by
  cases v with
  | nothing => cases hn
  | number m =>
    cases hn
    exact h

theorem inRange_of_checked {n m : Int} (h : checked n = .ok m) : InRange m := (checked_eq_ok_iff.1 h).2

theorem Scale.inRange_of_apply {o : Scale} {a b n : Int} (h : o.apply a b = .ok n) : InRange n := by
  cases o with
  | times => exact inRange_of_checked h
  | «over» =>
    rw [apply, divide] at h
    split at h
    · cases h
    · exact inRange_of_checked h

theorem Sign.inRange_of_apply {s : Sign} {a b n : Int} (h : s.apply a b = .ok n) : InRange n := by
  cases s with
  | plus => exact inRange_of_checked h
  | minus => exact inRange_of_checked h

/-- Functions of numbers that fit have values that fit. -/
theorem ensures_applyFunction (hI : State.Framed I) (tag : Tag) {arguments : List Value}
    (h : ∀ v ∈ arguments, v.Fits) : Ensures I I (applyFunction tag arguments) InRange := by
  have hid : ∀ s, I s → I s := fun _ => id
  unfold applyFunction
  split
  · exact .look_bind hid fun n _ => .require hid fun _ => inRange_of_checked
  · rename_i a
    have ha : a.Fits := h a (by simp)
    refine .look_bind hid fun n hn => ensures_draw hI ?_
    obtain ⟨-, hhi⟩ := ha.of_toInt hn
    omega
  · exact .stop hid _
  · rename_i a b _
    have ha : a.Fits := h a (by simp)
    refine .look_bind hid fun n hn => .look_bind hid fun m _ => .require hid fun r hr => ?_
    rw [remainder] at hr
    split at hr
    · cases hr
    · cases hr
      exact (ha.of_toInt hn).tmod m
  · exact .stop hid _

theorem Program.WellKinded.pos {p : Program} (hp : p.WellKinded) (hn : p.arena.nodes[i]? = some n)
    (htag : n.tag ≠ .root) : 0 < i := by
  obtain ⟨root, hroot, hroottag, -⟩ := hp.root
  rcases Nat.eq_zero_or_pos i with rfl | hi
  · obtain rfl := Option.some.inj (hroot.symm.trans hn)
    exact absurd hroottag htag
  · exact hi

/-- The evaluation of nodes keeps a property of states, and what nodes with values yield fits. -/
def Image.Values (image : Image) (I : State → Prop) (evaluate : NodeId → Execution Value) : Prop :=
  ∀ (i : NodeId) (n : Node), image.program.arena.nodes[i]? = some n → n.tag.isValue →
    Ensures I I (evaluate i) Value.Fits

/-- A reference to a node with a value is followed. -/
theorem Image.Values.of_names {evaluate : NodeId → Execution Value} (h : image.Values I evaluate)
    {reference? : Option NodeId} (hnames : image.program.arena.Names i NodeTag.isValue reference?) :
    Ensures I I (look (reference reference?) >>= evaluate) Value.Fits := by
  obtain ⟨j, m, rfl, -, hm, hvalue⟩ := hnames
  exact h j m hm hvalue

/-- A reference to a node with a value is followed, and something is done with the value. -/
theorem Image.Values.bind {α : Type} {evaluate : NodeId → Execution Value} (h : image.Values I evaluate)
    {reference? : Option NodeId} (hnames : image.program.arena.Names i NodeTag.isValue reference?)
    {J : State → Prop} (hJ : ∀ s, I s → J s) {f : Value → Execution α} {P : α → Prop}
    (hf : ∀ v : Value, v.Fits → Ensures I J (f v) P) :
    Ensures I J (look (reference reference?) >>= fun j => evaluate j >>= f) P := by
  obtain ⟨j, m, rfl, -, hm, hvalue⟩ := hnames
  show Ensures I J (evaluate j >>= f) P
  exact .bind hJ (h j m hm hvalue) hf

/-- The members of a sum or a product are added or multiplied one by one. -/
theorem Image.Values.foldlM {evaluate : NodeId → Execution Value} (h : image.Values I evaluate)
    (hmembers : image.program.arena.Members i (fun m => m.tag.isValue) n)
    (combine : NodeTag → Int → Int → Except Reason Int)
    (hcombine : ∀ tag a b c, combine tag a b = .ok c → InRange c) {start : Int} (hstart : InRange start) :
    Ensures I I ((image.program.arena.children n).foldlM (fun total j => do
      let v ← evaluate j
      let member ← look (image.program.node j)
      require (combine member.tag total (← look v.toInt))) start) InRange := by
  have hid : ∀ s, I s → I s := fun _ => id
  refine .foldlM (fun j hj total _ => ?_) hstart
  obtain ⟨-, m, hm, hvalue⟩ := hmembers.2 j hj
  refine .bind hid (h j m hm hvalue) fun v _ => .look_bind hid fun member _ => .look_bind hid fun b _ => ?_
  exact .require hid fun c => hcombine _ _ _ c

/-- The value of a node fits if the values of its parts do. -/
theorem Image.ensures_evaluateWith_value (hI : State.Framed I) (hp : image.program.WellKinded)
    {operand item argument : NodeId → Execution Value} (hoperand : image.Values I operand)
    (hargument : image.Values I argument) : image.Values I (image.evaluateWith operand item argument) := by
  intro i n hn hvalue
  have hid : ∀ s, I s → I s := fun _ => id
  -- The root has no value, so the node is not the first one.
  have hkinded := hp.node i n (hp.pos hn (fun h => by rw [h] at hvalue; cases hvalue)) hn
  rw [evaluateWith, Program.node_eq hn, look_ok, pure_bind]
  have hliteral := hp.exists_number (n := n)
  obtain ⟨tag, token, lhs, rhs⟩ := n
  cases tag with
  | number =>
    obtain ⟨t, v, rfl, hv⟩ := hliteral hkinded
    refine .look_bind hid fun a ha => .pure hid ?_
    have ha : image.program.number t = .ok a := ha
    obtain rfl := Except.ok.inj (hv.symm.trans ha)
    exact .ofNumeral v
  | var =>
    refine .look_bind hid fun l _ => fun s hs => ⟨hs, fun v hv => ?_⟩
    cases hv
    exact hI.store s hs l
  | factor _ => exact hoperand.of_names hkinded
  | term _ =>
    exact .bind hid (hoperand.foldlM hkinded (fun tag => tag.scale.apply)
      (fun _ _ _ _ => Scale.inRange_of_apply) (by decide)) fun _ h => .pure hid h
  | expression =>
    exact .bind hid (hoperand.foldlM hkinded (fun tag => tag.sign.apply)
      (fun _ _ _ _ => Sign.inRange_of_apply) (by decide)) fun _ h => .pure hid h
  | predicate =>
    refine hoperand.bind hkinded.1 hid fun a _ => hoperand.bind hkinded.2.1 hid fun b _ => ?_
    exact .look_bind hid fun operator _ => .look_bind hid fun b _ => .pure hid (.truth b)
  | call =>
    refine .look_bind hid fun function _ => ?_
    refine .bind hid (.mapM (P := Value.Fits) fun j hj => ?_) fun arguments harguments => ?_
    · obtain ⟨-, m, hm, hvalue⟩ := hkinded.1.2 j hj
      exact hargument j m hm hvalue
    · exact .bind hid (ensures_applyFunction hI _ harguments) fun _ h => .pure hid h
  | _ => cases hvalue

/-- Whatever members a term has, its value fits. -/
theorem Image.ensures_value (hI : State.Framed I) (hp : image.program.WellKinded) (frames : Nat) :
    image.Values I (image.evaluate frames) := by
  induction frames using Nat.strongRecOn with
  | ind frames ih =>
    cases frames with
    | zero => exact fun _ _ _ _ => .throw (fun _ => id) _
    | succ frames =>
      intro i n hn hvalue
      rw [evaluate_succ]
      exact ensures_evaluateWith_value hI hp (ih frames (Nat.lt_succ_self _)) (ih (frames - 2) (by omega)) i n hn hvalue

end Values

/-! ### Statements -/

section Statements

variable {lines : Nat}

theorem State.framed_inLine (lines : Nat) : State.Framed (State.InLine lines) :=
  ⟨fun _ hs => hs.store, fun _ _ hs => ⟨⟨hs.store, hs.room, hs.saved, hs.counter⟩, hs.behind⟩⟩

theorem State.InLine.withConsole {s : State} (hs : s.InLine lines) (c : Console) :
    State.InLine lines { s with console := c } :=
  ⟨⟨hs.store, hs.room, hs.saved, hs.counter⟩, hs.behind⟩

theorem State.InLine.withStore {s : State} (hs : s.InLine lines) {v : Value} (hv : v.Fits) (l : Letter) :
    State.InLine lines { s with store := s.store.set l v l.isLt } := by
  refine ⟨⟨fun l' => ?_, hs.room, hs.saved, hs.counter⟩, hs.behind⟩
  have hget : (s.store.set l v l.isLt).get l' = if l.val = l'.val then v else s.store.get l' := by
    simp only [Vector.get, Vector.set, Array.getElem_set]
    rfl
  rw [hget]
  split
  · exact hv
  · exact hs.store l'

theorem State.InLine.inOrder {s : State} (hs : s.InLine lines) : s.InOrder lines := hs.toInOrder

/-- Going to a line, or to the end. -/
theorem State.InLine.goTo {s : State} (hs : s.InLine lines) {position : Nat}
    (hposition : position ≤ lines ∨ position = endPosition) :
    State.InOrder lines { s with counter := position } :=
  ⟨hs.store, hs.room, hs.saved, hposition⟩

theorem Execution.ensures_assign {v : Value} (hv : v.Fits) (l : Letter) :
    Ensures (State.InLine lines) (State.InLine lines) (assign l v) fun _ => True :=
  .modify fun _ hs => hs.withStore hv l

/-- One more position is saved if there is room, and that is the position behind the line. -/
theorem Execution.ensures_save : Ensures (State.InLine lines) (State.InLine lines) save fun _ => True := by
  intro s hs
  have hroom := hs.room
  rw [save, Mirrors.get_bind_apply]
  by_cases hfull : s.stack.length = maxStack
  · rw [if_pos hfull]
    exact ⟨hs, fun _ _ => trivial⟩
  · rw [if_neg hfull]
    refine ⟨⟨⟨hs.store, ?_, List.forall_mem_cons.2 ⟨hs.behind, hs.saved⟩, hs.counter⟩, hs.behind⟩, fun _ _ => trivial⟩
    show (s.counter :: s.stack).length ≤ maxStack
    rw [List.length_cons]
    omega

/-- The position that was saved last is one behind a line. -/
theorem Execution.ensures_restore : Ensures (State.InLine lines) (State.InOrder lines) restore fun _ => True := by
  intro s hs
  obtain ⟨store, stack, counter, errors, console, generator⟩ := s
  cases stack with
  | nil => exact ⟨hs.inOrder, fun _ _ => trivial⟩
  | cons position stack =>
    obtain ⟨hposition, hsaved⟩ := List.forall_mem_cons.1 hs.saved
    refine ⟨⟨hs.store, ?_, hsaved, .inl hposition.2⟩, fun _ _ => trivial⟩
    exact Nat.le_trans (Nat.le_succ _) hs.room

theorem Execution.ensures_onConsole {α : Type} {f : Console → Except Halt α × Console} {P : α → Prop}
    (hP : ∀ c a c', f c = (.ok a, c') → P a) :
    Ensures (State.InLine lines) (State.InLine lines) (onConsole f) P := by
  intro s hs
  refine ⟨hs.withConsole _, fun a ha => ?_⟩
  exact hP s.console a (f s.console).2 (Prod.ext ha rfl)

variable {image : Image} {i : NodeId} {n : Node}

/-- A jump leads to a line. -/
theorem Image.ensures_jump (htable : ∀ n k, image.table.find? n = some k → k < lines) (v : Value) :
    Ensures (State.InLine lines) (State.InOrder lines) (image.jump v) fun _ => True := by
  rw [jump]
  split
  · rename_i position hposition
    refine .modify fun s hs => hs.goTo (.inl ?_)
    cases v with
    | nothing => cases hposition
    | number m => exact Nat.le_of_lt (htable m position hposition)
  · exact .stop (fun _ => State.InLine.inOrder) _

theorem Image.ensures_inputVariable (i : NodeId) :
    Ensures (State.InLine lines) (State.InLine lines) (image.inputVariable i) fun _ => True := by
  have hid : ∀ s, State.InLine lines s → State.InLine lines s := fun _ => id
  refine .look_bind hid fun n _ => .look_bind hid fun l _ => ?_
  refine .bind hid (ensures_onConsole (P := InRange) fun c a c' h => Console.inRange_of_readNumber h) fun a ha => ?_
  exact ensures_assign (v := .number a) ha l

theorem Image.Values.itemText {evaluate : NodeId → Execution Value}
    (h : image.Values (State.InLine lines) evaluate) (hn : image.program.arena.nodes[i]? = some n)
    (hitem : n.tag.isValue ∨ n.tag = .string) :
    Ensures (State.InLine lines) (State.InLine lines) (image.itemText evaluate i) fun _ => True := by
  have hid : ∀ s, State.InLine lines s → State.InLine lines s := fun _ => id
  rw [Image.itemText, Program.node_eq hn, look_ok, pure_bind]
  split
  · exact .look_bind hid fun _ _ => .pure hid trivial
  · exact .bind hid (h i n hn (hitem.resolve_right ‹_›)) fun _ _ => .pure hid trivial

/-- The evaluation of statements leads from a state in a line to one that is in order. -/
def Image.Statements (image : Image) (lines : Nat) (evaluate : NodeId → Execution Value) : Prop :=
  ∀ (i : NodeId) (n : Node), image.program.arena.nodes[i]? = some n → n.tag.isStatement →
    Ensures (State.InLine lines) (State.InOrder lines) (evaluate i) fun _ => True

theorem Image.Statements.of_names {evaluate : NodeId → Execution Value} (h : image.Statements lines evaluate)
    {reference? : Option NodeId} (hnames : image.program.arena.Names i NodeTag.isStatement reference?) :
    Ensures (State.InLine lines) (State.InOrder lines) (look (reference reference?) >>= evaluate) fun _ => True := by
  obtain ⟨j, m, rfl, -, hm, hstatement⟩ := hnames
  exact h j m hm hstatement

theorem Image.ensures_evaluateWith_statement (hp : image.program.WellKinded)
    (htable : ∀ n k, image.table.find? n = some k → k < lines) {operand item argument : NodeId → Execution Value}
    (hoperand : image.Values (State.InLine lines) operand) (hitem : image.Values (State.InLine lines) item)
    (hbody : image.Statements lines operand) :
    image.Statements lines (image.evaluateWith operand item argument) := by
  intro i n hn hstatement
  have hid : ∀ s, State.InLine lines s → State.InLine lines s := fun _ => id
  have hend : ∀ s, State.InLine lines s → State.InOrder lines s := fun _ => State.InLine.inOrder
  have hnothing : Ensures (State.InLine lines) (State.InOrder lines) (pure Value.nothing : Execution Value)
      fun _ => True := .pure hend trivial
  have hkinded := hp.node i n (hp.pos hn (fun h => by rw [h] at hstatement; cases hstatement)) hn
  rw [evaluateWith, Program.node_eq hn, look_ok, pure_bind]
  obtain ⟨tag, token, lhs, rhs⟩ := n
  cases tag with
  | print =>
    refine .bind hend (.mapM (P := fun _ => True) fun j hj => ?_) fun items _ => ?_
    · obtain ⟨-, m, hm, hmember⟩ := hkinded.2 j hj
      exact hitem.itemText hm hmember
    · exact .bind hend (ensures_onConsole fun _ _ _ _ => trivial) fun _ _ => hnothing
  | input =>
    exact .bind hend (.forM fun j hj => ensures_inputVariable j) fun _ _ => hnothing
  | assign =>
    refine hoperand.bind hkinded.1 hend fun v hv => ?_
    refine .look_bind hend fun l _ => ?_
    exact .bind hend (ensures_assign hv l) fun _ _ => hnothing
  | branch =>
    refine hoperand.bind hkinded.1 hend fun v hv => ?_
    split
    · obtain ⟨j, m, hrhs, -, hm, hj⟩ := hkinded.2
      obtain rfl : rhs = some j := hrhs
      show Ensures _ _ (operand j >>= fun _ => pure Value.nothing) _
      -- The body leaves a state that is in order but need not be in a line any more.
      exact .bind (fun _ => id) (hbody j m hm hj) fun _ _ => .pure (fun _ => id) trivial
    · exact hnothing
  | goto =>
    refine hoperand.bind hkinded hend fun v hv => ?_
    exact .bind (fun _ => id) (ensures_jump htable v) fun _ _ => .pure (fun _ => id) trivial
  | gosub =>
    refine .bind hend ensures_save fun _ _ => hoperand.bind hkinded hend fun v hv => ?_
    exact .bind (fun _ => id) (ensures_jump htable v) fun _ _ => .pure (fun _ => id) trivial
  | action a =>
    cases a with
    | ret => exact .bind (fun _ => id) ensures_restore fun _ _ => .pure (fun _ => id) trivial
    | halt =>
      exact .bind (fun _ => id) (.modify fun s hs => hs.goTo (.inr rfl)) fun _ _ => .pure (fun _ => id) trivial
    | clear | list | run => exact .stop hend _
  | _ => cases hstatement

/-- Statements lead from a state in a line to one that is in order. -/
theorem Image.ensures_statement (hp : image.program.WellKinded)
    (htable : ∀ n k, image.table.find? n = some k → k < lines) (frames : Nat) :
    image.Statements lines (image.evaluate frames) := by
  have hvalues : ∀ frames, image.Values (State.InLine lines) (image.evaluate frames) :=
    ensures_value (State.framed_inLine lines) hp
  induction frames with
  | zero => exact fun _ _ _ _ => .throw (fun _ => State.InLine.inOrder) _
  | succ frames ih =>
    intro i n hn hstatement
    rw [evaluate_succ]
    exact ensures_evaluateWith_statement hp htable (hvalues _) (hvalues _) ih i n hn hstatement

/-- A line does what its statement does. -/
theorem Image.ensures_line (hp : image.program.WellKinded)
    (htable : ∀ n k, image.table.find? n = some k → k < lines) (frames : Nat)
    (hn : image.program.arena.nodes[i]? = some n) (hline : n.tag.isLine) :
    Ensures (State.InLine lines) (State.InOrder lines) (image.evaluate frames i) fun _ => True := by
  cases frames with
  | zero => exact .throw (fun _ => State.InLine.inOrder) _
  | succ frames =>
    have hkinded := hp.node i n (hp.pos hn (fun h => by rw [h] at hline; cases hline)) hn
    have hbody := ensures_statement hp htable frames
    rw [evaluate_succ, evaluateWith, Program.node_eq hn, look_ok, pure_bind]
    obtain ⟨tag, token, lhs, rhs⟩ := n
    cases tag with
    | nakedLine => exact hbody.of_names hkinded
    | markedLine => exact hbody.of_names hkinded.1
    | _ => cases hline

end Statements

/-! ### Steps and sessions -/

section Sessions

variable {image : Image} {s : State}

/-- The lines of an image are lines, and jumps lead to them. -/
structure Image.Leads (image : Image) : Prop where
  line : ∀ i ∈ image.lines, ∃ n, image.program.arena.nodes[i]? = some n ∧ n.tag.isLine
  jump : ∀ n k, image.table.find? n = some k → k < image.lines.size

theorem Image.step_inOrder (hp : image.program.WellKinded) (h : image.Leads) (hs : s.InOrder image.lines.size) :
    (image.step s).2.InOrder image.lines.size := by
  rw [step]
  split
  · exact hs
  · rename_i line hline
    obtain ⟨hlt, hget⟩ := Array.getElem?_eq_some_iff.1 hline
    obtain ⟨n, hn, htag⟩ := h.line line (hget ▸ Array.getElem_mem hlt)
    have hbegun : State.InLine image.lines.size { s with counter := s.counter + 1 } :=
      ⟨⟨hs.store, hs.room, hs.saved, .inl hlt⟩, Nat.succ_pos _, hlt⟩
    have hdone := (ensures_line hp h.jump maxFrames hn htag _ hbegun).1
    dsimp only
    split
    · exact hbegun.inOrder
    · generalize hrun : (image.evaluate maxFrames line).run { s with counter := s.counter + 1 } = result
      have hdone : result.2.InOrder image.lines.size := hrun ▸ hdone
      rcases result with ⟨e | v, s'⟩
      · cases e with
        | stopped r => exact ⟨hdone.store, hdone.room, hdone.saved, hdone.counter⟩
        | aborted a => exact hdone
      · exact hdone

theorem State.inOrder_initial (lines : Nat) (console : Console) (seed : Int) :
    (State.initial console seed).InOrder lines := by
  refine ⟨fun l => ?_, Nat.zero_le _, fun _ h => (List.not_mem_nil h).elim, .inl (Nat.zero_le _)⟩
  have hget : (State.initial console seed).store.get l = .number 0 := by simp [State.initial, Vector.get]
  rw [hget]
  exact ⟨by decide, by decide⟩

theorem Image.inOrder_of_reachable (hp : image.program.WellKinded) (h : image.Leads) {s' : State}
    (hs : s.InOrder image.lines.size) (hreach : image.Reachable s s') : s'.InOrder image.lines.size := by
  induction hreach with
  | initial => exact hs
  | step _ ih => exact step_inOrder hp h ih
  | cleared _ ih => exact ⟨ih.store, ih.room, ih.saved, ih.counter⟩
  | feed _ text ih => exact ⟨ih.store, ih.room, ih.saved, ih.counter⟩

theorem Image.Reachable.trans {s' s'' : State} (h : image.Reachable s s') (h' : image.Reachable s' s'') :
    image.Reachable s s'' := by
  induction h' with
  | initial => exact h
  | step _ ih => exact .step ih
  | cleared _ ih => exact .cleared ih
  | feed _ text ih => exact .feed ih text

theorem Image.reachable_stepsFrom (done limit : Nat) (s : State) :
    image.Reachable s (image.stepsFrom done limit s).2.2 := by
  induction limit generalizing done s with
  | zero => exact .initial
  | succ limit ih =>
    have hstep : image.Reachable s (image.step s).2 := .step .initial
    rw [stepsFrom]
    split
    · rename_i s' heq
      rw [heq] at hstep
      exact hstep.trans (ih (done + 1) s')
    · rename_i o s' _ heq
      rw [heq] at hstep
      exact hstep

theorem Session.state_eq_of_reply {p : Program} {r : Session.Report} {o : Outcome} {reply : Session.Reply}
    (h : (do return ⟨r, ← Session.errorOf p o, s⟩ : Except Abort Session.Reply) = .ok reply) : reply.state = s := by
  cases herror : errorOf p o with
  | error a =>
    rw [herror] at h
    cases h
  | ok e =>
    rw [herror] at h
    cases h
    rfl

/-- Operations lead to states that are reached step by step. -/
theorem Session.reachable_of_apply {limit : Nat} {op : Session.Op} {reply : Session.Reply}
    (h : Session.apply image limit s op = .ok reply) : image.Reachable s reply.state := by
  have hcleared : image.Reachable s s.cleared := .cleared .initial
  have hsteps : ∀ n, image.Reachable s (image.steps n s.cleared).2.2 := fun n =>
    hcleared.trans (Image.reachable_stepsFrom 0 n s.cleared)
  cases op with
  | step =>
    have hreach : image.Reachable s (image.step s.cleared).2 := .step hcleared
    rw [apply] at h
    generalize image.step s.cleared = result at h hreach
    obtain ⟨o, s'⟩ := result
    dsimp only at h
    cases herror : errorOf image.program o with
    | error a =>
      rw [herror] at h
      cases h
    | ok e =>
      rw [herror] at h
      cases e with
      | none =>
        cases h
        exact hreach
      | some e =>
        cases h
        exact hreach
  | steps n => exact (state_eq_of_reply h).symm ▸ hsteps n
  | run => exact (state_eq_of_reply h).symm ▸ hsteps limit
  | feed text =>
    cases h
    exact hcleared.feed text
  | table =>
    cases h
    exact hcleared

theorem Session.reachable_of_play {limit : Nat} {ops : List Session.Op} {replies : List Session.Reply}
    (h : Session.play image limit s ops = .ok replies) : ∀ reply ∈ replies, image.Reachable s reply.state := by
  induction ops generalizing s replies with
  | nil =>
    cases h
    exact fun _ hreply => (List.not_mem_nil hreply).elim
  | cons op ops ih =>
    cases happly : Session.apply image limit s op with
    | error a =>
      rw [play_cons_of_error happly] at h
      cases h
    | ok reply =>
      rw [play_cons_of_ok happly] at h
      cases hrest : Session.play image limit reply.state ops with
      | error a =>
        rw [hrest] at h
        cases h
      | ok rest =>
        rw [hrest] at h
        cases h
        have hreach := reachable_of_apply happly
        exact List.forall_mem_cons.2 ⟨hreach, fun reply' hreply' => hreach.trans (ih hrest reply' hreply')⟩

end Sessions

theorem State.framed_variablesFit : State.Framed State.VariablesFit := ⟨fun _ => id, fun _ _ h => h⟩

/-- Parsed programs are well-kinded. The states of a well-kinded program are in order, whatever the session does, the
console refuses and the generator draws, and in all states in which the variables fit, the nodes with values yield
values that fit. -/
theorem Program.session_inOrder :
    (∀ source p, Program.parse source = .ok p → p.WellKinded) ∧
    ∀ p : Program, p.WellKinded → ∃ image, Image.ofProgram p = .ok image ∧
      (∀ (i : NodeId) (n : Node), p.arena.nodes[i]? = some n → n.tag.isValue → ∀ frames s, s.VariablesFit →
        ∀ v, (image.evaluate frames i s).1 = .ok v → v.Fits) ∧
      ∀ console seed,
        (∀ s, image.Reachable (State.initial console seed) s → s.InOrder image.lines.size) ∧
        ∀ limit ops replies, Session.play image limit (State.initial console seed) ops = .ok replies →
          ∀ reply ∈ replies, reply.state.InOrder image.lines.size := by
  constructor
  · intro source p hp
    obtain ⟨-, lines, hlines⟩ := Program.parse_eq_ok_iff.1 hp
    exact hlines.wellKinded
  · intro p hp
    obtain ⟨image, himage, rfl, hline, hjump⟩ := hp.exists_image
    refine ⟨image, himage, fun i n hn hvalue frames s hs v hv => ?_, fun console seed => ?_⟩
    · exact (Image.ensures_value State.framed_variablesFit hp frames i n hn hvalue s hs).2 v hv
    · have hreach : ∀ s, image.Reachable (State.initial console seed) s → s.InOrder image.lines.size := fun s =>
        Image.inOrder_of_reachable hp ⟨hline, hjump⟩ (State.inOrder_initial _ console seed)
      refine ⟨hreach, fun limit ops replies hplay reply hreply => ?_⟩
      exact hreach _ (Session.reachable_of_play hplay reply hreply)

/-- A line that prints a term with nothing but a divisor and a sum of nothing, which no source text spells. -/
def Program.handmade : Program :=
  ⟨['5'], #[⟨.number, 0, 1⟩, ⟨.eof, 1, 1⟩],
    ⟨#[⟨.root, none, some 3, some 4⟩, ⟨.number, some 0, none, none⟩, ⟨.factor .over, none, some 1, none⟩,
      ⟨.term .plus, none, some 0, some 1⟩, ⟨.expression, none, some 1, some 1⟩, ⟨.print, some 0, some 1, some 3⟩,
      ⟨.nakedLine, none, some 5, none⟩], #[2, 3, 4, 6]⟩⟩

theorem Program.wellKinded_handmade : Program.handmade.WellKinded := by
  refine ⟨⟨[⟨.number, 0, 1⟩, ⟨.eof, 1, 1⟩], by decide +kernel, rfl⟩, ?_, ?_⟩
  · refine ⟨_, rfl, rfl, ⟨3, 4, rfl, rfl, by decide, by decide⟩, fun i hi => ?_⟩
    obtain rfl : i = 6 := List.mem_singleton.1 hi
    exact ⟨_, rfl, rfl⟩
  · rintro (_ | _ | _ | _ | _ | _ | _ | i) n hi hn
    case zero => cases hi
    all_goals cases hn
    · exact ⟨0, _, rfl, rfl, rfl⟩
    · exact ⟨1, _, rfl, by decide, rfl, rfl⟩
    · refine ⟨⟨0, 1, rfl, rfl, by decide, by decide⟩, fun j hj => ?_⟩
      obtain rfl : j = 2 := List.mem_singleton.1 hj
      exact ⟨by decide, _, rfl, rfl⟩
    · exact ⟨⟨1, 1, rfl, rfl, by decide, by decide⟩, fun j hj => by cases hj⟩
    · refine ⟨⟨1, 3, rfl, rfl, by decide, by decide⟩, fun j hj => ?_⟩
      rcases List.mem_cons.1 (show j ∈ [3, 4] from hj) with rfl | hj
      · exact ⟨by decide, _, rfl, .inl rfl⟩
      · obtain rfl := List.mem_singleton.1 hj
        exact ⟨by decide, _, rfl, .inl rfl⟩
    · exact ⟨5, _, rfl, by decide, rfl, rfl⟩

theorem Program.session_inOrder_handmade : (∃ p, Program.parse Program.sample = .ok p ∧ p.WellKinded) ∧
    ∃ image, Image.ofProgram Program.handmade = .ok image ∧
      (image.step (State.initial (Console.ofInput []) 0)).2.InOrder image.lines.size := by
  obtain ⟨hparsed, hinOrder⟩ := Program.session_inOrder
  obtain ⟨p, hp⟩ := Program.exists_parse_sample
  obtain ⟨image, himage, -, hsession⟩ := hinOrder Program.handmade Program.wellKinded_handmade
  exact ⟨⟨p, hp, hparsed _ p hp⟩, image, himage, (hsession (Console.ofInput []) 0).1 _ (.step .initial)⟩

end LineBasic

import LineBasic.Proofs.Arena.Flattened

/-!
# What a tree keeps of its program

The tree of a program keeps all of its tags, in order, except for lines without a statement and for each plus that
opens an expression. It has a line end behind the last statement even if the text has none.

## Main definitions

* `withoutOpeningPlus`: a line without each plus that opens an expression.
* `tidied`: what the tree of a program keeps of its leaves.
* `Mark.Agrees`: a mark stands for another one, which may have a token that it has not.
* `marked`: the leaves of the marks that have a token.

## Main results

* `Expr.SpelledBy.trims`, `Stmt.SpelledBy.trims`, `Grammar.LineSpelledBy.agrees`: what is kept of the leaves of an
  expression, a statement or a line are the marks of its tree.
* `Grammar.SpelledBy.agrees_tidied`: the marks of a program are those of its tidied leaves.
* `Grammar.SpelledBy.sublist_marked`: the marks with a token are some of the leaves, in order.
-/

namespace LineBasic

open Forest

/-! ### Tidied leaves -/

/-- The tags with which an operand ends. Behind such a tag a plus adds, behind any other one it opens an expression. -/
def Tag.endsOperand : Tag → Bool
  | .var | .number | .rparen => true
  | _ => false

/-- The leaves of a line without each plus that opens an expression. The flag says whether an operand ends in front of
the leaves. -/
def withoutOpeningPlus : (behindOperand : Bool) → List Leaf → List Leaf
  | _, [] => []
  | behindOperand, l :: ls =>
    if behindOperand = false ∧ l.1 = .sign .plus then withoutOpeningPlus l.1.endsOperand ls
    else l :: withoutOpeningPlus l.1.endsOperand ls

/-- A line without a statement: it is empty, or there is only a number. -/
def isBare (line : List Leaf) : Bool := line.map Prod.fst = [] || line.map Prod.fst = [.number]

/-- A leaf as a mark with a token. -/
def markOf (l : Leaf) : Mark := (l.1, some l.2)

/-- What a tree keeps of the leaves of a line: nothing if there is no statement, and otherwise all but each plus that
opens an expression, with a line end behind them. -/
def tidiedLine (line : List Leaf) : List Mark :=
  if isBare line then [] else (withoutOpeningPlus false line).map markOf ++ [(.eol, none)]

/-- What a tree keeps of the leaves of a program. -/
def tidied (ls : List Leaf) : List Mark := (ls.splitOnP fun l => l.1 = .eol).flatMap tidiedLine

/-- A mark has the tag of another one, and its token if it has one. -/
def Mark.Agrees (m m' : Mark) : Prop := m.1 = m'.1 ∧ ∀ i ∈ m.2, i ∈ m'.2

/-- The leaves of the marks that have a token. -/
def marked (ms : List Mark) : List Leaf := ms.filterMap fun m => m.2.map (m.1, ·)

/-- Of the leaves, with an operand in front of them or not, the marks are kept; afterwards, an operand stands in front
or not. -/
def Trims (behindOperand : Bool) (ls : List Leaf) (ms : List Mark) (endsOperand : Bool) : Prop :=
  ∃ kept, (∀ rest, withoutOpeningPlus behindOperand (ls ++ rest) = kept ++ withoutOpeningPlus endsOperand rest) ∧
    List.Forall₂ Mark.Agrees ms (kept.map markOf)

section Trims

variable {b b' b'' : Bool} {ls ls' : List Leaf} {ms ms' : List Mark} {t : Tag} {i : TokenId}

namespace Trims

theorem nil (b : Bool) : Trims b [] [] b := ⟨[], fun _ => rfl, .nil⟩

theorem append (h : Trims b ls ms b') (h' : Trims b' ls' ms' b'') : Trims b (ls ++ ls') (ms ++ ms') b'' := by
  obtain ⟨kept, hkept, hms⟩ := h
  obtain ⟨kept', hkept', hms'⟩ := h'
  refine ⟨kept ++ kept', fun rest => ?_, ?_⟩
  · rw [List.append_assoc, hkept, hkept', List.append_assoc]
  · rw [List.map_append]
    exact List.rel_append hms hms'

/-- Any tag but a plus is kept, and its token may be forgotten. -/
theorem cons (b : Bool) {token : Option TokenId} (ht : t ≠ .sign .plus) (htoken : ∀ j ∈ token, j ∈ some i)
    (h : Trims t.endsOperand ls ms b') : Trims b ((t, i) :: ls) ((t, token) :: ms) b' := by
  obtain ⟨kept, hkept, hms⟩ := h
  refine ⟨(t, i) :: kept, fun rest => ?_, .cons ⟨rfl, htoken⟩ hms⟩
  rw [List.cons_append, withoutOpeningPlus, if_neg fun hplus => ht hplus.2, hkept, List.cons_append]

theorem marked (b : Bool) (ht : t ≠ .sign .plus) (h : Trims t.endsOperand ls ms b') :
    Trims b ((t, i) :: ls) ((t, some i) :: ms) b' :=
  h.cons b ht fun _ hj => hj

theorem unmarked (b : Bool) (ht : t ≠ .sign .plus) (h : Trims t.endsOperand ls ms b') :
    Trims b ((t, i) :: ls) ((t, none) :: ms) b' :=
  h.cons b ht nofun

/-- Behind an operand, any sign is kept. -/
theorem sign (s : Sign) (h : Trims false ls ms b') : Trims true ((.sign s, i) :: ls) ((.sign s, none) :: ms) b' := by
  obtain ⟨kept, hkept, hms⟩ := h
  refine ⟨(.sign s, i) :: kept, fun rest => ?_, .cons ⟨rfl, nofun⟩ hms⟩
  rw [List.cons_append, withoutOpeningPlus, if_neg fun hplus => Bool.noConfusion hplus.1, List.cons_append, ← hkept]
  rfl

/-- A plus that opens an expression is dropped. -/
theorem plus (h : Trims false ls ms b') : Trims false ((.sign .plus, i) :: ls) ms b' := by
  obtain ⟨kept, hkept, hms⟩ := h
  refine ⟨kept, fun rest => ?_, hms⟩
  rw [List.cons_append, withoutOpeningPlus, if_pos ⟨rfl, rfl⟩, ← hkept]
  rfl

end Trims

/-- What is kept of an expression that starts where an operand is missing are the marks of its tree. -/
theorem Expr.SpelledBy.trims {l : Level} {e : ParsedExpr l} (h : e.SpelledBy ls) : Trims false ls e.marks true := by
  induction h with
  | var v => exact (Trims.nil true).marked _ (by simp)
  | number n => exact (Trims.nil true).marked _ (by simp)
  | group i j _ ih => exact (ih.unmarked (t := .lparen) _ (by simp)).append ((Trims.nil true).unmarked _ (by simp))
  | abs mark i j _ ih =>
    have hopened := (ih.unmarked (t := .lparen) (i := i) _ (by simp)).marked (t := .builtin .abs) (i := mark) false
      (by simp)
    exact hopened.append ((Trims.nil true).unmarked _ (by simp))
  | rnd mark i j _ ih =>
    have hopened := (ih.unmarked (t := .lparen) (i := i) _ (by simp)).marked (t := .builtin .rnd) (i := mark) false
      (by simp)
    exact hopened.append ((Trims.nil true).unmarked _ (by simp))
  | mod mark i j k _ _ ih₁ ih₂ =>
    have hopened := (ih₁.unmarked (t := .lparen) (i := i) _ (by simp)).marked (t := .builtin .mod) (i := mark) false
      (by simp)
    have hboth := hopened.append (ih₂.unmarked (t := .comma) (i := j) true (by simp))
    exact hboth.append ((Trims.nil true).unmarked _ (by simp))
  | factor _ ih => exact ih
  | scale o i _ _ ihp iha => exact ihp.append (iha.unmarked (t := .scale o) _ (by simp))
  | unsigned _ ih => exact ih
  | signed s i _ ih =>
    cases s with
    -- A plus is left out where an operand is missing, and kept between two terms.
    | plus => exact ih.plus
    | minus => exact ih.unmarked (t := .sign .minus) _ (by simp)
  | add s i _ _ ihe ihp => exact ihe.append (ihp.sign s)

theorem Item.SpelledBy.trims {item : ParsedItem} (h : item.SpelledBy ls) : ∃ b, Trims false ls item.marks b := by
  cases h with
  | text s => exact ⟨_, (Trims.nil _).marked (t := .string) _ (by simp)⟩
  | value he => exact ⟨_, he.trims⟩

theorem VariableSpelledBy.trims {v : TokenId} (h : VariableSpelledBy v ls) :
    ∃ b, Trims false ls (variableMarks v) b := by
  obtain rfl := h
  exact ⟨_, (Trims.nil _).marked (t := .var) _ (by simp)⟩

/-- Of the members of a list, their marks are kept with the commas in front of them. -/
theorem ListSpelledBy.trims {α : Type} {spelled : α → List Leaf → Prop} {marks : α → List Mark} {xs : List α}
    (hxs : ListSpelledBy (Behind .comma spelled) xs ls)
    (h : ∀ x ls, spelled x ls → ∃ b, Trims false ls (marks x) b) (b : Bool) :
    ∃ b', Trims b ls (marksBehindCommas marks xs) b' := by
  induction hxs generalizing b with
  | nil => exact ⟨b, Trims.nil b⟩
  | cons hx _ ih =>
    obtain ⟨i, ls', rfl, hx⟩ := hx
    obtain ⟨b', hmember⟩ := h _ _ hx
    obtain ⟨b'', hrest⟩ := ih b'
    exact ⟨b'', (hmember.unmarked (t := .comma) b (by simp)).append hrest⟩

/-- What is kept of a statement are the marks of its tree. -/
theorem Stmt.SpelledBy.trims {s : ParsedStmt} (h : s.SpelledBy ls) (b : Bool) : ∃ b', Trims b ls s.marks b' := by
  induction h generalizing b with
  | print mark hitem hmore =>
    obtain ⟨b₁, hitem⟩ := hitem.trims
    obtain ⟨b₂, hmore⟩ := hmore.trims (fun _ _ => Item.SpelledBy.trims) b₁
    exact ⟨b₂, (hitem.marked (t := .keyword .print) b (by simp)).append hmore⟩
  | input mark hv hmore =>
    obtain ⟨b₁, hv⟩ := hv.trims
    obtain ⟨b₂, hmore⟩ := hmore.trims (fun _ _ => VariableSpelledBy.trims) b₁
    exact ⟨b₂, (hv.marked (t := .keyword .input) b (by simp)).append hmore⟩
  | assign i j he =>
    have hvalue := he.trims.unmarked (t := .comparison .eq) (i := j) true (by simp)
    exact ⟨_, (hvalue.marked (t := .var) false (by simp)).unmarked (t := .keyword .let) b (by simp)⟩
  | branch mark r relation i he₁ he₂ _ ih =>
    obtain ⟨b', hbody⟩ := ih false
    have hleft := he₁.trims.marked (t := .keyword .if) (i := mark) b (by simp)
    have hright := he₂.trims.marked (t := .comparison r) (i := relation) true (by simp)
    exact ⟨b', (hleft.append hright).append (hbody.unmarked (t := .keyword .then) true (by simp))⟩
  | goto mark he => exact ⟨_, he.trims.marked (t := .keyword .goto) b (by simp)⟩
  | gosub mark he => exact ⟨_, he.trims.marked (t := .keyword .gosub) b (by simp)⟩
  | action mark a => exact ⟨_, (Trims.nil _).marked (t := .keyword a.keyword) b (by simp)⟩

end Trims

/-! ### Lines -/

section Lines

variable {ls : List Leaf}

namespace Grammar

variable {line? : Option ParsedLine} {lines : List ParsedLine}

/-- What is kept of a line are the marks of its tree, if it has one. -/
theorem LineSpelledBy.agrees (h : LineSpelledBy line? ls) :
    List.Forall₂ Mark.Agrees (Grammar.marks line?.toList) (tidiedLine ls) := by
  have hline {ls : List Leaf} {ms : List Mark} {b : Bool} (hbare : isBare ls = false) (h : Trims false ls ms b) :
      List.Forall₂ Mark.Agrees (ms ++ [(.eol, none)]) (tidiedLine ls) := by
    obtain ⟨kept, hkept, hms⟩ := h
    have hall := hkept []
    rw [List.append_nil, withoutOpeningPlus, List.append_nil] at hall
    rw [tidiedLine, hbare, if_neg Bool.false_ne_true, hall]
    exact List.rel_append hms (.cons ⟨rfl, nofun⟩ .nil)
  cases h with
  | empty => exact .nil
  | number n => exact .nil
  | naked hs =>
    obtain ⟨b, htrims⟩ := hs.trims false
    obtain ⟨t, i, ls, rfl, ht⟩ := hs.head_ne_number
    have hbare : isBare ((t, i) :: ls) = false := by simp [isBare, ht]
    simpa [Grammar.marks, Line.marks] using hline hbare htrims
  | marked n hs =>
    obtain ⟨b, htrims⟩ := hs.trims true
    obtain ⟨t, i, ls, rfl, -⟩ := hs.head_ne_number
    have hbare : isBare ((.number, n) :: (t, i) :: ls) = false := by simp [isBare]
    simpa [Grammar.marks, Line.marks] using hline hbare (htrims.marked (t := .number) false (by simp))

/-- The marks of a program are those of its tidied leaves. -/
theorem SpelledBy.agrees_tidied (h : SpelledBy lines ls) :
    List.Forall₂ Mark.Agrees (Grammar.marks lines) (tidied ls) := by
  have hlast {ls : List Leaf} (hls : InnerLeaves ls) : tidied ls = tidiedLine ls := by
    rw [tidied, List.splitOnP_eq_singleton fun l hl => by simpa using (hls l hl).2, List.flatMap_singleton]
  induction h with
  | nil => exact .nil
  | last hline =>
    rw [hlast hline.inner]
    exact hline.agrees
  | @line line? lines ls ls' i hline _ ih =>
    have htidied : tidied (ls ++ (.eol, i) :: ls') = tidiedLine ls ++ tidied ls' := by
      have hinner : ∀ l ∈ ls, decide (l.1 = .eol) = false := fun l hl => by simpa using (hline.inner l hl).2
      rw [tidied, List.splitOnP_append_cons_of_forall_mem hinner _ (by simp), List.flatMap_cons]
      rfl
    rw [htidied, Grammar.marks, List.flatMap_append]
    exact List.rel_append hline.agrees ih

end Grammar

end Lines

/-! ### The leaves of the marks with a token -/

section Marked

variable {ls : List Leaf} {ms ms' : List Mark}

theorem marked_append (ms ms' : List Mark) : marked (ms ++ ms') = marked ms ++ marked ms' := List.filterMap_append

@[simp] theorem marked_map_markOf (ls : List Leaf) : marked (ls.map markOf) = ls := by
  induction ls with
  | nil => rfl
  | cons l ls ih => exact congrArg (l :: ·) ih

theorem map_snd_marked (ms : List Mark) : (marked ms).map Prod.snd = tokensOf ms := by
  induction ms with
  | nil => rfl
  | cons m ms ih =>
    obtain ⟨t, token⟩ := m
    cases token with
    | none => exact ih
    | some i => exact congrArg (i :: ·) ih

theorem mem_marked {t : Tag} {i : TokenId} (h : (t, some i) ∈ ms) : (t, i) ∈ marked ms :=
  List.mem_filterMap.2 ⟨_, h, rfl⟩

/-- Marks that stand for others have some of their leaves. -/
theorem sublist_marked_of_agrees (h : List.Forall₂ Mark.Agrees ms ms') : (marked ms).Sublist (marked ms') := by
  induction h with
  | nil => exact .slnil
  | @cons m m' ms ms' hm _ ih =>
    obtain ⟨t, token⟩ := m
    obtain ⟨t', token'⟩ := m'
    obtain ⟨rfl, htoken⟩ := hm
    cases token with
    | none => cases token' with
      | none => exact ih
      | some j => exact ih.cons (t, j)
    | some i =>
      obtain rfl := htoken i rfl
      exact ih.cons_cons (t, i)

theorem withoutOpeningPlus_sublist (b : Bool) (ls : List Leaf) : (withoutOpeningPlus b ls).Sublist ls := by
  induction ls generalizing b with
  | nil => exact .slnil
  | cons l ls ih =>
    rw [withoutOpeningPlus]
    split
    · exact (ih _).cons l
    · exact (ih _).cons_cons l

theorem sublist_marked_tidiedLine (ls : List Leaf) : (marked (tidiedLine ls)).Sublist ls := by
  rw [tidiedLine]
  split
  · exact List.nil_sublist ls
  · rw [marked_append, marked_map_markOf]
    exact (List.append_nil _).symm ▸ withoutOpeningPlus_sublist false ls

/-- The marks with a token are some of the leaves, in order. -/
theorem Grammar.SpelledBy.sublist_marked {lines : List ParsedLine} (h : SpelledBy lines ls) :
    (marked (Grammar.marks lines)).Sublist ls := by
  have hline {line? : Option ParsedLine} {ls : List Leaf} (h : LineSpelledBy line? ls) :
      (marked (Grammar.marks line?.toList)).Sublist ls :=
    (sublist_marked_of_agrees h.agrees).trans (sublist_marked_tidiedLine ls)
  induction h with
  | nil => exact .slnil
  | last hlast => exact hline hlast
  | line i h _ ih =>
    rw [Grammar.marks, List.flatMap_append, marked_append]
    exact (hline h).append (ih.cons _)

end Marked

end LineBasic

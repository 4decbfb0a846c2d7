import LineBasic.Proofs.Grammar.Acceptance
import LineBasic.Proofs.ListRelation
import LineBasic.Proofs.Token.Scanned

/-!
# What the leaves of a tree mean

The tree of a program that was just parsed has token positions at its leaves. The plain tree has the letters,
numbers and strings that are written there, and forgets where they stood.

## Main definitions

* `Numeral`, `Body`: the numbers and the strings that can be written in a program.
* `PlainExpr`, `PlainItem`, `PlainStmt`, `PlainLine`: trees without positions.
* `Expr.Means`, `Item.Means`, `Stmt.Means`, `Line.Means`: the plain tree of a parsed tree, given the lexemes of
  the program. The tags of the tokens that a tree marks are part of it.
* `Clause`: a plain line with the token on which its errors are blamed.

## Main results

* `Grammar.SpelledBy.exists_means`: lines that are spelled by sound lexemes have plain trees.
* `Clause.MeantBy.unique`: a line has one only.
-/

namespace LineBasic

/-- A number that can be written in a program. -/
abbrev Numeral := Fin (maxLiteral + 1)

/-- The characters between the quotes of a string. -/
abbrev Body := { s : List Char // s.all isStringChar }

/-- Trees with letters, numbers and strings at the leaves. -/
abbrev PlainExpr (l : Level) := Expr Letter Numeral Unit l

@[inherit_doc PlainExpr]
abbrev PlainItem := Item Letter Numeral Body Unit

@[inherit_doc PlainExpr]
abbrev PlainStmt := Stmt Letter Numeral Body Unit

@[inherit_doc PlainExpr]
abbrev PlainLine := Line Letter Numeral Body Unit

/-- The tag and the characters of a token. -/
abbrev Lexeme := Tag × List Char

/-- The lexeme writes a variable. -/
def Lexeme.IsLetter (w : Lexeme) (v : Letter) : Prop := w = (.var, [v.char])

/-- The lexeme writes a number. -/
def Lexeme.IsNumeral (w : Lexeme) (n : Numeral) : Prop :=
  w.1 = .number ∧ Decimal.unsigned? w.2 = some n.val

/-- The lexeme writes a string. -/
def Lexeme.IsBody (w : Lexeme) (s : Body) : Prop := w = (.string, '"' :: (s.val ++ ['"']))

/-- The lexeme has a tag. -/
def Lexeme.HasTag (w : Lexeme) (t : Tag) : Prop := w.1 = t

/-- The lexeme at a position has a property. -/
def LexemeAt (ws : List Lexeme) (i : TokenId) (P : Lexeme → Prop) : Prop := ∃ w, ws[i]? = some w ∧ P w

section Means

variable (ws : List Lexeme)

/-- What an expression means whose leaves are positions of the lexemes. -/
inductive Expr.Means : {l : Level} → ParsedExpr l → PlainExpr l → Prop
  | var {i : TokenId} {v : Letter} (h : LexemeAt ws i (·.IsLetter v)) : Means (.var i) (.var v)
  | number {i : TokenId} {n : Numeral} (h : LexemeAt ws i (·.IsNumeral n)) : Means (.number i) (.number n)
  | group {e : ParsedExpr .sum} {e' : PlainExpr .sum} (he : Means e e') : Means (.group e) (.group e')
  | abs {mark : TokenId} {e : ParsedExpr .sum} {e' : PlainExpr .sum}
      (hmark : LexemeAt ws mark (·.HasTag (.builtin .abs))) (he : Means e e') :
      Means (.abs mark e) (.abs () e')
  | rnd {mark : TokenId} {e : ParsedExpr .sum} {e' : PlainExpr .sum}
      (hmark : LexemeAt ws mark (·.HasTag (.builtin .rnd))) (he : Means e e') :
      Means (.rnd mark e) (.rnd () e')
  | mod {mark : TokenId} {e₁ e₂ : ParsedExpr .sum} {e₁' e₂' : PlainExpr .sum}
      (hmark : LexemeAt ws mark (·.HasTag (.builtin .mod))) (he₁ : Means e₁ e₁') (he₂ : Means e₂ e₂') :
      Means (.mod mark e₁ e₂) (.mod () e₁' e₂')
  | factor {a : ParsedExpr .operand} {a' : PlainExpr .operand} (ha : Means a a') :
      Means (.factor a) (.factor a')
  | scale {p : ParsedExpr .product} {p' : PlainExpr .product} {a : ParsedExpr .operand}
      {a' : PlainExpr .operand} (o : Scale) (hp : Means p p') (ha : Means a a') :
      Means (.scale p o a) (.scale p' o a')
  | signed {p : ParsedExpr .product} {p' : PlainExpr .product} (s : Sign) (hp : Means p p') :
      Means (.signed s p) (.signed s p')
  | add {e : ParsedExpr .sum} {e' : PlainExpr .sum} {p : ParsedExpr .product} {p' : PlainExpr .product}
      (s : Sign) (he : Means e e') (hp : Means p p') : Means (.add e s p) (.add e' s p')

/-- What an item of PRINT means. -/
inductive Item.Means : ParsedItem → PlainItem → Prop
  | text {i : TokenId} {s : Body} (h : LexemeAt ws i (·.IsBody s)) : Means (.text i) (.text s)
  | value {e : ParsedExpr .sum} {e' : PlainExpr .sum} (he : e.Means ws e') : Means (.value e) (.value e')

/-- What a variable of INPUT means. -/
def VariableMeans (i : TokenId) (v : Letter) : Prop := LexemeAt ws i (·.IsLetter v)

/-- What a statement means. -/
inductive Stmt.Means : ParsedStmt → PlainStmt → Prop
  | print {mark : TokenId} {item : ParsedItem} {item' : PlainItem} {more : List ParsedItem}
      {more' : List PlainItem} (hmark : LexemeAt ws mark (·.HasTag (.keyword .print)))
      (hitem : item.Means ws item') (hmore : List.Forall₂ (Item.Means ws) more more') :
      Means (.print mark item more) (.print () item' more')
  | input {mark i : TokenId} {v : Letter} {more : List TokenId} {more' : List Letter}
      (hmark : LexemeAt ws mark (·.HasTag (.keyword .input))) (hv : VariableMeans ws i v)
      (hmore : List.Forall₂ (VariableMeans ws) more more') :
      Means (.input mark i more) (.input () v more')
  | assign {i : TokenId} {v : Letter} {e : ParsedExpr .sum} {e' : PlainExpr .sum}
      (hv : VariableMeans ws i v) (he : e.Means ws e') : Means (.assign i e) (.assign v e')
  | branch {mark relation : TokenId} {e₁ e₂ : ParsedExpr .sum} {e₁' e₂' : PlainExpr .sum} {r : Comparison}
      {body : ParsedStmt} {body' : PlainStmt} (hmark : LexemeAt ws mark (·.HasTag (.keyword .if)))
      (hrelation : LexemeAt ws relation (·.HasTag (.comparison r))) (he₁ : e₁.Means ws e₁')
      (he₂ : e₂.Means ws e₂') (hbody : Means body body') :
      Means (.branch mark e₁ r relation e₂ body) (.branch () e₁' r () e₂' body')
  | goto {mark : TokenId} {e : ParsedExpr .sum} {e' : PlainExpr .sum}
      (hmark : LexemeAt ws mark (·.HasTag (.keyword .goto))) (he : e.Means ws e') :
      Means (.goto mark e) (.goto () e')
  | gosub {mark : TokenId} {e : ParsedExpr .sum} {e' : PlainExpr .sum}
      (hmark : LexemeAt ws mark (·.HasTag (.keyword .gosub))) (he : e.Means ws e') :
      Means (.gosub mark e) (.gosub () e')
  | action {mark : TokenId} {a : Action} (hmark : LexemeAt ws mark (·.HasTag (.keyword a.keyword))) :
      Means (.action mark a) (.action () a)

/-- What a line means. -/
inductive Line.Means : ParsedLine → PlainLine → Prop
  | naked {s : ParsedStmt} {s' : PlainStmt} (hs : s.Means ws s') : Means ⟨none, s⟩ ⟨none, s'⟩
  | marked {i : TokenId} {n : Numeral} {s : ParsedStmt} {s' : PlainStmt}
      (hn : LexemeAt ws i (·.IsNumeral n)) (hs : s.Means ws s') : Means ⟨some i, s⟩ ⟨some n, s'⟩

end Means

/-- The token that errors of a statement are blamed on. -/
def Stmt.blame : ParsedStmt → TokenId
  | .print mark _ _ | .input mark _ _ | .branch mark _ _ _ _ _ | .goto mark _ | .gosub mark _ | .action mark _ => mark
  | .assign i _ => i

/-- A plain line with the token that its errors are blamed on. -/
structure Clause where
  token : TokenId
  line : PlainLine
  deriving DecidableEq

/-- What a line means, with its token. -/
def Clause.MeantBy (ws : List Lexeme) (line : ParsedLine) (c : Clause) : Prop :=
  line.Means ws c.line ∧ c.token = line.body.blame

/-! ### A tree has one meaning -/

theorem Letter.ofChar?_char (v : Letter) : Letter.ofChar? v.char = some v := by
  revert v
  decide

theorem Letter.char_injective : Function.Injective Letter.char := fun v v' h =>
  Option.some.inj ((ofChar?_char v).symm.trans (h ▸ ofChar?_char v'))

section Unique

variable {ws : List Lexeme}

theorem LexemeAt.and {i : TokenId} {P Q : Lexeme → Prop} (hP : LexemeAt ws i P) (hQ : LexemeAt ws i Q) :
    ∃ w, P w ∧ Q w := by
  obtain ⟨w, hw, hP⟩ := hP
  obtain ⟨w', hw', hQ⟩ := hQ
  rw [hw] at hw'
  cases hw'
  exact ⟨w, hP, hQ⟩

theorem VariableMeans.unique {i : TokenId} {v v' : Letter} (h : VariableMeans ws i v)
    (h' : VariableMeans ws i v') : v = v' := by
  obtain ⟨w, rfl, h⟩ := h.and h'
  simpa [Lexeme.IsLetter, Letter.char_injective.eq_iff] using h

theorem numeral_unique {i : TokenId} {n n' : Numeral} (h : LexemeAt ws i (·.IsNumeral n))
    (h' : LexemeAt ws i (·.IsNumeral n')) : n = n' := by
  obtain ⟨w, ⟨-, hn⟩, -, hn'⟩ := h.and h'
  rw [hn] at hn'
  exact Fin.ext (Option.some.inj hn')

theorem body_unique {i : TokenId} {s s' : Body} (h : LexemeAt ws i (·.IsBody s))
    (h' : LexemeAt ws i (·.IsBody s')) : s = s' := by
  obtain ⟨w, rfl, h⟩ := h.and h'
  simpa [Lexeme.IsBody, Subtype.ext_iff] using h

theorem Expr.Means.unique {l : Level} {e : ParsedExpr l} {e₁ e₂ : PlainExpr l} (h₁ : e.Means ws e₁)
    (h₂ : e.Means ws e₂) : e₁ = e₂ := by
  induction h₁ with
  | var h => cases h₂ with | var h' => rw [VariableMeans.unique h h']
  | number h => cases h₂ with | number h' => rw [numeral_unique h h']
  | group _ ih => cases h₂ with | group h' => rw [ih h']
  | abs _ _ ih => cases h₂ with | abs _ h' => rw [ih h']
  | rnd _ _ ih => cases h₂ with | rnd _ h' => rw [ih h']
  | mod _ _ _ ih₁ ih₂ => cases h₂ with | mod _ h₁' h₂' => rw [ih₁ h₁', ih₂ h₂']
  | factor _ ih => cases h₂ with | factor h' => rw [ih h']
  | scale o _ _ ihp iha => cases h₂ with | scale _ hp' ha' => rw [ihp hp', iha ha']
  | signed s _ ih => cases h₂ with | signed _ h' => rw [ih h']
  | add s _ _ ihe ihp => cases h₂ with | add _ he' hp' => rw [ihe he', ihp hp']

theorem Item.Means.unique {item : ParsedItem} {item₁ item₂ : PlainItem} (h₁ : item.Means ws item₁)
    (h₂ : item.Means ws item₂) : item₁ = item₂ := by
  cases h₁ with
  | text h => cases h₂ with | text h' => rw [body_unique h h']
  | value h => cases h₂ with | value h' => rw [h.unique h']

theorem Stmt.Means.unique {s : ParsedStmt} {s₁ s₂ : PlainStmt} (h₁ : s.Means ws s₁) (h₂ : s.Means ws s₂) :
    s₁ = s₂ := by
  induction h₁ generalizing s₂ with
  | print _ hitem hmore =>
    cases h₂ with
    | print _ hitem' hmore' =>
      rw [hitem.unique hitem', List.right_unique_forall₂' (fun _ _ _ h h' => h.unique h') hmore hmore']
  | input _ hv hmore =>
    cases h₂ with
    | input _ hv' hmore' =>
      rw [hv.unique hv', List.right_unique_forall₂' (fun _ _ _ h h' => h.unique h') hmore hmore']
  | assign hv he => cases h₂ with | assign hv' he' => rw [hv.unique hv', he.unique he']
  | branch _ _ he₁ he₂ _ ih =>
    cases h₂ with
    | branch _ _ he₁' he₂' hbody' => rw [he₁.unique he₁', he₂.unique he₂', ih hbody']
  | goto _ he => cases h₂ with | goto _ he' => rw [he.unique he']
  | gosub _ he => cases h₂ with | gosub _ he' => rw [he.unique he']
  | action _ => cases h₂; rfl

theorem Line.Means.unique {line : ParsedLine} {line₁ line₂ : PlainLine} (h₁ : line.Means ws line₁)
    (h₂ : line.Means ws line₂) : line₁ = line₂ := by
  cases h₁ with
  | naked hs => cases h₂ with | naked hs' => rw [hs.unique hs']
  | marked hn hs => cases h₂ with | marked hn' hs' => rw [numeral_unique hn hn', hs.unique hs']

theorem Clause.MeantBy.unique {line : ParsedLine} {c₁ c₂ : Clause} (h₁ : c₁.MeantBy ws line)
    (h₂ : c₂.MeantBy ws line) : c₁ = c₂ := by
  obtain ⟨token₁, line₁⟩ := c₁
  obtain ⟨token₂, line₂⟩ := c₂
  rw [Clause.mk.injEq]
  exact ⟨h₁.2.trans h₂.2.symm, h₁.1.unique h₂.1⟩

end Unique

/-! ### Nesting -/

/-- Reading the leaves does not change how deep an expression is nested. -/
theorem Expr.Means.nesting {ws : List Lexeme} {l : Level} {e : ParsedExpr l} {e' : PlainExpr l}
    (h : e.Means ws e') : e'.nesting = e.nesting := by
  induction h <;> simp_all [Expr.nesting]

theorem Item.Means.nesting {ws : List Lexeme} {item : ParsedItem} {item' : PlainItem}
    (h : item.Means ws item') : item'.nesting = item.nesting := by
  cases h with
  | text _ => rfl
  | value he => exact he.nesting

theorem Stmt.Means.nesting {ws : List Lexeme} {s : ParsedStmt} {s' : PlainStmt} (h : s.Means ws s') :
    s'.nesting = s.nesting := by
  induction h with
  | print _ hitem hmore =>
    simp only [Stmt.nesting, List.map_cons, List.foldr_cons, hitem.nesting]
    congr 1
    induction hmore with
    | nil => rfl
    | cons h _ ih => simp only [List.map_cons, List.foldr_cons, h.nesting, ih]
  | input _ _ _ => rfl
  | assign _ he => exact he.nesting
  | branch _ _ he₁ he₂ _ ih => simp only [Stmt.nesting, he₁.nesting, he₂.nesting, ih]
  | goto _ he => exact he.nesting
  | gosub _ he => exact he.nesting
  | action _ => rfl

theorem Line.Means.nesting {ws : List Lexeme} {line : ParsedLine} {line' : PlainLine} (h : line.Means ws line') :
    line'.body.nesting = line.body.nesting := by
  cases h with
  | naked hs => exact hs.nesting
  | marked _ hs => exact hs.nesting

/-! ### A tree that is spelled by lexemes has a meaning -/

/-- The lexemes of literals write literals. -/
structure Lexeme.Sound (w : Lexeme) : Prop where
  letter : w.1 = .var → ∃ v, w.IsLetter v
  numeral : w.1 = .number → ∃ n, w.IsNumeral n
  body : w.1 = .string → ∃ s, w.IsBody s

/-- The leaves have the tags of the lexemes at their positions, and these are sound. -/
def LeavesOf (ws : List Lexeme) (ls : List Leaf) : Prop :=
  ∀ l ∈ ls, LexemeAt ws l.2 fun w => w.HasTag l.1 ∧ w.Sound

section Exists

variable {ws : List Lexeme} {ls ls' : List Leaf}

@[simp] theorem leavesOf_cons {l : Leaf} : LeavesOf ws (l :: ls) ↔
    (LexemeAt ws l.2 fun w => w.HasTag l.1 ∧ w.Sound) ∧ LeavesOf ws ls := by
  simp [LeavesOf]

@[simp] theorem leavesOf_append : LeavesOf ws (ls ++ ls') ↔ LeavesOf ws ls ∧ LeavesOf ws ls' := by
  simp [LeavesOf, or_imp, forall_and]

theorem LexemeAt.hasTag {i : TokenId} {t : Tag} (h : LexemeAt ws i fun w => w.HasTag t ∧ w.Sound) :
    LexemeAt ws i (·.HasTag t) := by
  obtain ⟨w, hw, ht, -⟩ := h
  exact ⟨w, hw, ht⟩

theorem exists_variableMeans {i : TokenId} (h : LexemeAt ws i fun w => w.HasTag .var ∧ w.Sound) :
    ∃ v, VariableMeans ws i v := by
  obtain ⟨w, hw, ht, hsound⟩ := h
  obtain ⟨v, hv⟩ := hsound.letter ht
  exact ⟨v, w, hw, hv⟩

theorem exists_numeral {i : TokenId} (h : LexemeAt ws i fun w => w.HasTag .number ∧ w.Sound) :
    ∃ n, LexemeAt ws i (·.IsNumeral n) := by
  obtain ⟨w, hw, ht, hsound⟩ := h
  obtain ⟨n, hn⟩ := hsound.numeral ht
  exact ⟨n, w, hw, hn⟩

theorem exists_body {i : TokenId} (h : LexemeAt ws i fun w => w.HasTag .string ∧ w.Sound) :
    ∃ s, LexemeAt ws i (·.IsBody s) := by
  obtain ⟨w, hw, ht, hsound⟩ := h
  obtain ⟨s, hs⟩ := hsound.body ht
  exact ⟨s, w, hw, hs⟩

theorem Expr.exists_means {l : Level} {e : ParsedExpr l} (h : e.SpelledBy ls) (hls : LeavesOf ws ls) :
    ∃ e', e.Means ws e' := by
  -- Each leaf has a lexeme that is sound, and a sound lexeme of a literal denotes something.
  induction h with
  | var v =>
    obtain ⟨v', hv⟩ := exists_variableMeans (leavesOf_cons.1 hls).1
    exact ⟨_, .var hv⟩
  | number n =>
    obtain ⟨n', hn⟩ := exists_numeral (leavesOf_cons.1 hls).1
    exact ⟨_, .number hn⟩
  | group i j _ ih =>
    simp only [leavesOf_cons, leavesOf_append, List.cons_append] at hls
    obtain ⟨e', he⟩ := ih hls.2.1
    exact ⟨_, .group he⟩
  | abs mark i j _ ih =>
    simp only [leavesOf_cons, leavesOf_append, List.cons_append] at hls
    obtain ⟨e', he⟩ := ih hls.2.2.1
    exact ⟨_, .abs hls.1.hasTag he⟩
  | rnd mark i j _ ih =>
    simp only [leavesOf_cons, leavesOf_append, List.cons_append] at hls
    obtain ⟨e', he⟩ := ih hls.2.2.1
    exact ⟨_, .rnd hls.1.hasTag he⟩
  | mod mark i j k _ _ ih₁ ih₂ =>
    simp only [leavesOf_cons, leavesOf_append, List.cons_append] at hls
    obtain ⟨e₁', he₁⟩ := ih₁ hls.2.2.1.1
    obtain ⟨e₂', he₂⟩ := ih₂ hls.2.2.1.2.2
    exact ⟨_, .mod hls.1.hasTag he₁ he₂⟩
  | factor _ ih =>
    obtain ⟨a', ha⟩ := ih hls
    exact ⟨_, .factor ha⟩
  | scale o i _ _ ihp iha =>
    simp only [leavesOf_cons, leavesOf_append] at hls
    obtain ⟨p', hp⟩ := ihp hls.1
    obtain ⟨a', ha⟩ := iha hls.2.2
    exact ⟨_, .scale o hp ha⟩
  | unsigned _ ih =>
    obtain ⟨p', hp⟩ := ih hls
    exact ⟨_, .signed .plus hp⟩
  | signed s i _ ih =>
    obtain ⟨p', hp⟩ := ih (leavesOf_cons.1 hls).2
    exact ⟨_, .signed s hp⟩
  | add s i _ _ ihe ihp =>
    simp only [leavesOf_cons, leavesOf_append] at hls
    obtain ⟨e', he⟩ := ihe hls.1
    obtain ⟨p', hp⟩ := ihp hls.2.2
    exact ⟨_, .add s he hp⟩

theorem Item.exists_means {item : ParsedItem} (h : item.SpelledBy ls) (hls : LeavesOf ws ls) :
    ∃ item', item.Means ws item' := by
  cases h with
  | text s =>
    obtain ⟨s', hs⟩ := exists_body (leavesOf_cons.1 hls).1
    exact ⟨_, .text hs⟩
  | value he =>
    obtain ⟨e', he⟩ := Expr.exists_means he hls
    exact ⟨_, .value he⟩

theorem exists_means_of_variableSpelledBy {v : TokenId} (h : VariableSpelledBy v ls) (hls : LeavesOf ws ls) :
    ∃ v', VariableMeans ws v v' := by
  subst h
  exact exists_variableMeans (leavesOf_cons.1 hls).1

theorem exists_forall₂_means {α β : Type} {spelled : α → List Leaf → Prop} {means : α → β → Prop} {t : Tag}
    {as : List α} (h : ListSpelledBy (Behind t spelled) as ls) (hls : LeavesOf ws ls)
    (hspelled : ∀ a ls, spelled a ls → LeavesOf ws ls → ∃ b, means a b) :
    ∃ bs, List.Forall₂ means as bs := by
  induction h with
  | nil => exact ⟨[], .nil⟩
  | cons ha _ ih =>
    obtain ⟨i, ls₁, rfl, ha⟩ := ha
    simp only [List.cons_append, leavesOf_cons, leavesOf_append] at hls
    obtain ⟨b, hb⟩ := hspelled _ _ ha hls.2.1
    obtain ⟨bs, hbs⟩ := ih hls.2.2
    exact ⟨b :: bs, .cons hb hbs⟩

theorem Stmt.exists_means {s : ParsedStmt} (h : s.SpelledBy ls) (hls : LeavesOf ws ls) :
    ∃ s', s.Means ws s' := by
  induction h with
  | print mark hitem hmore =>
    simp only [List.cons_append, leavesOf_cons, leavesOf_append] at hls
    obtain ⟨item', hitem⟩ := Item.exists_means hitem hls.2.1
    obtain ⟨more', hmore⟩ := exists_forall₂_means hmore hls.2.2 fun _ _ => Item.exists_means
    exact ⟨_, .print hls.1.hasTag hitem hmore⟩
  | input mark hv hmore =>
    simp only [List.cons_append, leavesOf_cons, leavesOf_append] at hls
    obtain ⟨v', hv⟩ := exists_means_of_variableSpelledBy hv hls.2.1
    obtain ⟨more', hmore⟩ := exists_forall₂_means hmore hls.2.2 fun _ _ =>
      exists_means_of_variableSpelledBy
    exact ⟨_, .input hls.1.hasTag hv hmore⟩
  | assign i j he =>
    simp only [leavesOf_cons] at hls
    obtain ⟨v', hv⟩ := exists_variableMeans hls.2.1
    obtain ⟨e', he⟩ := Expr.exists_means he hls.2.2.2
    exact ⟨_, .assign hv he⟩
  | branch mark r relation i he₁ he₂ _ ih =>
    simp only [List.cons_append, List.append_assoc, leavesOf_cons, leavesOf_append] at hls
    obtain ⟨hmark, hls₁, hrelation, hls₂, -, hls⟩ := hls
    obtain ⟨e₁', he₁⟩ := Expr.exists_means he₁ hls₁
    obtain ⟨e₂', he₂⟩ := Expr.exists_means he₂ hls₂
    obtain ⟨body', hbody⟩ := ih hls
    exact ⟨_, .branch hmark.hasTag hrelation.hasTag he₁ he₂ hbody⟩
  | goto mark he =>
    obtain ⟨hmark, hls⟩ := leavesOf_cons.1 hls
    obtain ⟨e', he⟩ := Expr.exists_means he hls
    exact ⟨_, .goto hmark.hasTag he⟩
  | gosub mark he =>
    obtain ⟨hmark, hls⟩ := leavesOf_cons.1 hls
    obtain ⟨e', he⟩ := Expr.exists_means he hls
    exact ⟨_, .gosub hmark.hasTag he⟩
  | action mark a => exact ⟨_, .action (leavesOf_cons.1 hls).1.hasTag⟩

theorem Line.exists_means {line : ParsedLine} (h : Grammar.LineSpelledBy (some line) ls)
    (hls : LeavesOf ws ls) : ∃ line', line.Means ws line' := by
  cases h with
  | naked hs =>
    obtain ⟨s', hs⟩ := Stmt.exists_means hs hls
    exact ⟨_, .naked hs⟩
  | marked n hs =>
    obtain ⟨hn, hls⟩ := leavesOf_cons.1 hls
    obtain ⟨n', hn⟩ := exists_numeral hn
    obtain ⟨s', hs⟩ := Stmt.exists_means hs hls
    exact ⟨_, .marked hn hs⟩

theorem Grammar.SpelledBy.exists_means {lines : List ParsedLine} (h : Grammar.SpelledBy lines ls)
    (hls : LeavesOf ws ls) : ∃ clauses, List.Forall₂ (Clause.MeantBy ws) lines clauses := by
  induction h with
  | nil => exact ⟨[], .nil⟩
  | last hline =>
    obtain ⟨line', h⟩ := Line.exists_means hline hls
    exact ⟨[⟨_, line'⟩], .cons ⟨h, rfl⟩ .nil⟩
  | @line line? lines ls ls' i hline _ ih =>
    simp only [leavesOf_cons, leavesOf_append] at hls
    obtain ⟨clauses, h⟩ := ih hls.2.2
    cases line? with
    | none => exact ⟨clauses, h⟩
    | some line =>
      obtain ⟨line', hline⟩ := Line.exists_means hline hls.1
      exact ⟨⟨_, line'⟩ :: clauses, .cons ⟨hline, rfl⟩ h⟩

end Exists

end LineBasic

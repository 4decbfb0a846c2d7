import LineBasic.Grammar.Program

/-!
# The grammar as a relation

Which tags spell which tree. There is a rule for each production of the grammar, and none of them says how a
tree is found. Products and sums grow to the left, so their operators associate to the left, and a sign in
front of a sum belongs to its first product.

## Main definitions

* `Leaf`: a tag and its position, which is what a tree keeps of it.
* `Expr.SpelledBy`, `Stmt.SpelledBy`, `Grammar.LineSpelledBy`, `Grammar.SpelledBy`: the derivations of
  expressions, statements, lines and programs.
* `Expr.nesting`, `Stmt.nesting`: how many expressions and IF statements stand inside one another.
* `Grammar.Derives`: the lines of a program, within the limit on nesting.
-/

namespace LineBasic

variable {V N S M : Type}

/-- A tag and the position at which it stands. -/
abbrev Leaf := Tag × TokenId

/-- The tags of a list with their positions. -/
abbrev leavesOf (tags : List Tag) : List Leaf := tags.zipIdx

/-- The leaves that spell an expression. -/
inductive Expr.SpelledBy : {l : Level} → ParsedExpr l → List Leaf → Prop
  | var (v : TokenId) : SpelledBy (.var v) [(.var, v)]
  | number (n : TokenId) : SpelledBy (.number n) [(.number, n)]
  | group {e : ParsedExpr .sum} {ls : List Leaf} (i j : TokenId) (he : SpelledBy e ls) :
      SpelledBy (.group e) ((.lparen, i) :: ls ++ [(.rparen, j)])
  | abs {e : ParsedExpr .sum} {ls : List Leaf} (mark i j : TokenId) (he : SpelledBy e ls) :
      SpelledBy (.abs mark e) ((.builtin .abs, mark) :: (.lparen, i) :: ls ++ [(.rparen, j)])
  | rnd {e : ParsedExpr .sum} {ls : List Leaf} (mark i j : TokenId) (he : SpelledBy e ls) :
      SpelledBy (.rnd mark e) ((.builtin .rnd, mark) :: (.lparen, i) :: ls ++ [(.rparen, j)])
  | mod {e₁ e₂ : ParsedExpr .sum} {ls₁ ls₂ : List Leaf} (mark i j k : TokenId)
      (he₁ : SpelledBy e₁ ls₁) (he₂ : SpelledBy e₂ ls₂) :
      SpelledBy (.mod mark e₁ e₂)
        ((.builtin .mod, mark) :: (.lparen, i) :: ls₁ ++ (.comma, j) :: ls₂ ++ [(.rparen, k)])
  | factor {a : ParsedExpr .operand} {ls : List Leaf} (ha : SpelledBy a ls) : SpelledBy (.factor a) ls
  | scale {p : ParsedExpr .product} {a : ParsedExpr .operand} {ls ls' : List Leaf} (o : Scale)
      (i : TokenId) (hp : SpelledBy p ls) (ha : SpelledBy a ls') :
      SpelledBy (.scale p o a) (ls ++ (.scale o, i) :: ls')
  | unsigned {p : ParsedExpr .product} {ls : List Leaf} (hp : SpelledBy p ls) :
      SpelledBy (.signed .plus p) ls
  | signed {p : ParsedExpr .product} {ls : List Leaf} (s : Sign) (i : TokenId) (hp : SpelledBy p ls) :
      SpelledBy (.signed s p) ((.sign s, i) :: ls)
  | add {e : ParsedExpr .sum} {p : ParsedExpr .product} {ls ls' : List Leaf} (s : Sign) (i : TokenId)
      (he : SpelledBy e ls) (hp : SpelledBy p ls') :
      SpelledBy (.add e s p) (ls ++ (.sign s, i) :: ls')

/-- The leaves that spell an item of PRINT. -/
inductive Item.SpelledBy : ParsedItem → List Leaf → Prop
  | text (s : TokenId) : SpelledBy (.text s) [(.string, s)]
  | value {e : ParsedExpr .sum} {ls : List Leaf} (he : e.SpelledBy ls) : SpelledBy (.value e) ls

/-- The leaf that spells a variable of INPUT. -/
def VariableSpelledBy (v : TokenId) (ls : List Leaf) : Prop := ls = [(.var, v)]

/-- What the leaves spell stands behind a given tag. -/
def Behind {α : Type} (t : Tag) (spelled : α → List Leaf → Prop) (a : α) (ls : List Leaf) : Prop :=
  ∃ i ls', ls = (t, i) :: ls' ∧ spelled a ls'

/-- The leaves that spell the members of a list, one behind the other. -/
inductive ListSpelledBy {α : Type} (spelled : α → List Leaf → Prop) : List α → List Leaf → Prop
  | nil : ListSpelledBy spelled [] []
  | cons {a : α} {as : List α} {ls ls' : List Leaf} (ha : spelled a ls)
      (has : ListSpelledBy spelled as ls') : ListSpelledBy spelled (a :: as) (ls ++ ls')

/-- The reserved word of a one-word statement. -/
def Action.keyword : Action → Keyword
  | .ret => .return
  | .clear => .clear
  | .list => .list
  | .run => .run
  | .halt => .end

/-- The leaves that spell a statement. -/
inductive Stmt.SpelledBy : ParsedStmt → List Leaf → Prop
  | print {item : ParsedItem} {more : List ParsedItem} {ls ls' : List Leaf} (mark : TokenId)
      (hitem : item.SpelledBy ls) (hmore : ListSpelledBy (Behind .comma Item.SpelledBy) more ls') :
      SpelledBy (.print mark item more) ((.keyword .print, mark) :: ls ++ ls')
  | input {v : TokenId} {more : List TokenId} {ls ls' : List Leaf} (mark : TokenId)
      (hv : VariableSpelledBy v ls)
      (hmore : ListSpelledBy (Behind .comma VariableSpelledBy) more ls') :
      SpelledBy (.input mark v more) ((.keyword .input, mark) :: ls ++ ls')
  | assign {v : TokenId} {e : ParsedExpr .sum} {ls : List Leaf} (i j : TokenId) (he : e.SpelledBy ls) :
      SpelledBy (.assign v e) ((.keyword .let, i) :: (.var, v) :: (.comparison .eq, j) :: ls)
  | branch {e₁ e₂ : ParsedExpr .sum} {body : ParsedStmt} {ls₁ ls₂ ls : List Leaf} (mark : TokenId)
      (r : Comparison) (relation i : TokenId) (he₁ : e₁.SpelledBy ls₁) (he₂ : e₂.SpelledBy ls₂)
      (hbody : SpelledBy body ls) :
      SpelledBy (.branch mark e₁ r relation e₂ body)
        ((.keyword .if, mark) :: ls₁ ++ (.comparison r, relation) :: ls₂ ++ (.keyword .then, i) :: ls)
  | goto {e : ParsedExpr .sum} {ls : List Leaf} (mark : TokenId) (he : e.SpelledBy ls) :
      SpelledBy (.goto mark e) ((.keyword .goto, mark) :: ls)
  | gosub {e : ParsedExpr .sum} {ls : List Leaf} (mark : TokenId) (he : e.SpelledBy ls) :
      SpelledBy (.gosub mark e) ((.keyword .gosub, mark) :: ls)
  | action (mark : TokenId) (a : Action) : SpelledBy (.action mark a) [(.keyword a.keyword, mark)]

/-- How many expressions stand inside one another, at most. -/
def Expr.nesting : {l : Level} → Expr V N M l → Nat
  | _, .var _ => 0
  | _, .number _ => 0
  | _, .group e => e.nesting
  | _, .abs _ e => e.nesting
  | _, .rnd _ e => e.nesting
  | _, .mod _ e₁ e₂ => max e₁.nesting e₂.nesting
  | _, .factor a => a.nesting
  | _, .scale p _ a => max p.nesting a.nesting
  | _, .signed _ p => p.nesting + 1
  | _, .add e _ p => max e.nesting (p.nesting + 1)

/-- How many expressions stand inside one another in an item of PRINT, at most. -/
def Item.nesting : Item V N S M → Nat
  | .text _ => 0
  | .value e => e.nesting

/-- How many IF statements and expressions stand inside one another, at most. -/
def Stmt.nesting : Stmt V N S M → Nat
  | .print _ item more => ((item :: more).map Item.nesting).foldr max 0
  | .input .. => 0
  | .assign _ e => e.nesting
  | .branch _ e₁ _ _ e₂ body => max (max e₁.nesting e₂.nesting) body.nesting + 1
  | .goto _ e => e.nesting
  | .gosub _ e => e.nesting
  | .action .. => 0

namespace Grammar

/-- The leaves that spell a line, without its end. A line may have a number, a statement, both or neither;
without a statement it leaves nothing. -/
inductive LineSpelledBy : Option ParsedLine → List Leaf → Prop
  | empty : LineSpelledBy none []
  | number (n : TokenId) : LineSpelledBy none [(.number, n)]
  | naked {s : ParsedStmt} {ls : List Leaf} (hs : s.SpelledBy ls) : LineSpelledBy (some ⟨none, s⟩) ls
  | marked {s : ParsedStmt} {ls : List Leaf} (n : TokenId) (hs : s.SpelledBy ls) :
      LineSpelledBy (some ⟨some n, s⟩) ((.number, n) :: ls)

/-- The leaves that spell a program, without the end of the text. Each line has its end, which may be missing
from the last one if that holds a statement. -/
inductive SpelledBy : List ParsedLine → List Leaf → Prop
  | nil : SpelledBy [] []
  | last {line : ParsedLine} {ls : List Leaf} (hline : LineSpelledBy (some line) ls) : SpelledBy [line] ls
  | line {line? : Option ParsedLine} {lines : List ParsedLine} {ls ls' : List Leaf} (i : TokenId)
      (hline : LineSpelledBy line? ls) (hlines : SpelledBy lines ls') :
      SpelledBy (line?.toList ++ lines) (ls ++ (.eol, i) :: ls')

/-- The lines that tags spell within the limit on nesting. -/
def Derives (tags : List Tag) (lines : List ParsedLine) : Prop :=
  SpelledBy lines (leavesOf tags) ∧ ∀ line ∈ lines, line.body.nesting ≤ maxNesting

end Grammar

end LineBasic

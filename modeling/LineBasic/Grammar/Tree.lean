import LineBasic.Token.Tag

/-!
# Syntax trees

The trees that the grammar of the language describes. What stands at the leaves is left open: a tree that
was just parsed has token indices there, a tree that is to be run has letters and numbers.

## Main definitions

* `Level`: the three layers of an expression.
* `Expr`: operands, products of operands and sums of products. A product and a sum grow to the left, as their
  operators associate.
* `Item`, `Stmt`, `Line`: what PRINT prints, statements, and program lines.

The parameters are the types of variables `V`, of numerals `N`, of string literals `S`, and of the marks `M`
that keywords, function names and relational operators leave.
-/

namespace LineBasic

/-- The layers of an expression, the most tightly bound first. -/
inductive Level where
  | operand
  | product
  | sum
  deriving DecidableEq, Repr

/-- An expression of a given layer. -/
inductive Expr (V N M : Type) : Level → Type where
  /-- The value of a variable. -/
  | var (v : V) : Expr V N M .operand
  /-- A numeral. -/
  | number (n : N) : Expr V N M .operand
  /-- A sum in parentheses. -/
  | group (e : Expr V N M .sum) : Expr V N M .operand
  /-- A call of ABS. -/
  | abs (mark : M) (e : Expr V N M .sum) : Expr V N M .operand
  /-- A call of RND. -/
  | rnd (mark : M) (e : Expr V N M .sum) : Expr V N M .operand
  /-- A call of MOD. -/
  | mod (mark : M) (e₁ e₂ : Expr V N M .sum) : Expr V N M .operand
  /-- The first operand of a product. -/
  | factor (a : Expr V N M .operand) : Expr V N M .product
  /-- A product and a further operand. -/
  | scale (p : Expr V N M .product) (o : Scale) (a : Expr V N M .operand) : Expr V N M .product
  /-- The first product of a sum, with its sign. -/
  | signed (s : Sign) (p : Expr V N M .product) : Expr V N M .sum
  /-- A sum and a further product. -/
  | add (e : Expr V N M .sum) (s : Sign) (p : Expr V N M .product) : Expr V N M .sum
  deriving DecidableEq, Repr

namespace Expr

variable {V N M : Type}

/-- The product of an operand and of the operands that follow it. -/
def ofFactors (a : Expr V N M .operand) (more : List (Scale × Expr V N M .operand)) :
    Expr V N M .product :=
  more.foldl (fun p (o, b) => .scale p o b) (.factor a)

/-- The sum of a product and of the products that follow it. -/
def ofTerms (s : Sign) (p : Expr V N M .product) (more : List (Sign × Expr V N M .product)) :
    Expr V N M .sum :=
  more.foldl (fun e (s, q) => .add e s q) (.signed s p)

end Expr

/-- What PRINT prints. -/
inductive Item (V N S M : Type) where
  /-- The characters of a string literal. -/
  | text (s : S)
  /-- The value of an expression. -/
  | value (e : Expr V N M .sum)
  deriving DecidableEq, Repr

/-- A statement that is a single word. -/
inductive Action where
  | ret
  | clear
  | list
  | run
  | halt
  deriving DecidableEq, Repr

/-- A statement. PRINT has at least one item and INPUT at least one variable. -/
inductive Stmt (V N S M : Type) where
  | print (mark : M) (item : Item V N S M) (more : List (Item V N S M))
  | input (mark : M) (v : V) (more : List V)
  | assign (v : V) (e : Expr V N M .sum)
  | branch (mark : M) (e₁ : Expr V N M .sum) (r : Comparison) (relation : M) (e₂ : Expr V N M .sum)
      (body : Stmt V N S M)
  | goto (mark : M) (e : Expr V N M .sum)
  | gosub (mark : M) (e : Expr V N M .sum)
  | action (mark : M) (a : Action)
  deriving DecidableEq, Repr

/-- A program line that holds a statement, with its number if it has one. -/
structure Line (V N S M : Type) where
  number : Option N
  body : Stmt V N S M
  deriving DecidableEq, Repr

/-- The position of a token in the list of tokens. -/
abbrev TokenId := Nat

/-- Trees as the parser builds them, with token positions at the leaves. -/
abbrev ParsedExpr (l : Level) := Expr TokenId TokenId TokenId l

@[inherit_doc ParsedExpr]
abbrev ParsedItem := Item TokenId TokenId TokenId TokenId

@[inherit_doc ParsedExpr]
abbrev ParsedStmt := Stmt TokenId TokenId TokenId TokenId

@[inherit_doc ParsedExpr]
abbrev ParsedLine := Line TokenId TokenId TokenId TokenId

end LineBasic

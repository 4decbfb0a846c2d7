import LineBasic.Arena.Layout
import LineBasic.Grammar.Program
import LineBasic.Token.Scan

/-!
# Programs

A program is a source text together with its tokens and its tree. Literals are not stored in the tree: their
values are read off the source when they are needed.

## Main definitions

* `Program`: source, tokens and arena.
* `Program.parse`: the program that a source text spells, or the reason why it spells none.
* `Program.number`, `Program.string`, `Program.letter`: the values of literals and variables.
* `Fault`: what is wrong with a tree that refers to things that are not there. No tree that the parser makes
  has a fault.
-/

namespace LineBasic

/-- The number of variables, one for each letter. -/
def letterCount : Nat := 26

/-- A variable. -/
abbrev Letter := Fin letterCount

/-- The letter with which a variable is written. -/
def Letter.char (l : Letter) : Char := Char.ofNat ('A'.toNat + l.val)

/-- The variable that a letter names. -/
def Letter.ofChar? (c : Char) : Option Letter :=
  if h : 'A'.toNat ≤ c.toNat ∧ c.toNat - 'A'.toNat < letterCount then
    some ⟨c.toNat - 'A'.toNat, h.2⟩
  else
    none

/-- A source text with its tokens and its tree. -/
structure Program where
  source : List Char
  tokens : Array Token
  arena : Arena
  deriving DecidableEq, Repr

/-- Why a source text is not a program. -/
inductive LoadError where
  /-- It cannot be cut into tokens. -/
  | scan (e : ScanError)
  /-- Its tokens do not follow the grammar. -/
  | parse (tokens : List Token) (e : ParseFailure)
  deriving DecidableEq, Repr

/-- What a literal can be asked for. -/
inductive LiteralKind where
  | number
  | string
  | var
  deriving DecidableEq, Repr

/-- What stops a program whose tree is not sound. -/
inductive Fault where
  /-- A node needs a literal of a kind that its token is not. -/
  | notLiteral (wanted : LiteralKind) (token : TokenId)
  /-- A node lacks a reference that its tag has a use for. -/
  | missing
  /-- A node refers to a node or to a token that does not exist. -/
  | dangling
  /-- Something without a value stands where a number is wanted. -/
  | noValue
  /-- Too many nodes stand above one another, or they refer to one another in a circle. -/
  | tooDeep
  /-- The generator never yields a number that is small enough. -/
  | noDraw
  deriving DecidableEq, Repr

/-- The words for a kind of literal. -/
def LiteralKind.words : LiteralKind → String
  | .number => "a number"
  | .string => "a string literal"
  | .var => "a variable"

/-- A fault in one line. -/
def Fault.message : Fault → String
  | .notLiteral wanted token => "token " ++ toString token ++ " is not " ++ wanted.words
  | .missing => "missing reference"
  | .dangling => "dangling reference"
  | .noValue => "no value"
  | .tooDeep => "too deep"
  | .noDraw => "no draw"

namespace Program

/-- The program that tokens spell. -/
def ofTokens (source : List Char) (tokens : List Token) : Except ParseFailure Program :=
  (Grammar.parse (tokens.map Token.tag)).map fun lines =>
    ⟨source, tokens.toArray, Arena.ofLines lines⟩

/-- The program that a source text spells. -/
def parse (source : List Char) : Except LoadError Program :=
  match scan source with
  | .error e => .error (.scan e)
  | .ok tokens => (ofTokens source tokens).mapError (.parse tokens)

/-- A token of the program. -/
def token (p : Program) (i : TokenId) : Except Fault Token :=
  match p.tokens[i]? with
  | some t => .ok t
  | none => .error .dangling

/-- A node of the program. -/
def node (p : Program) (i : NodeId) : Except Fault Node :=
  match p.arena.nodes[i]? with
  | some n => .ok n
  | none => .error .dangling

/-- The characters of a token. -/
def tokenText (p : Program) (i : TokenId) : Except Fault (List Char) :=
  (p.token i).map (Token.text p.source)

/-- The value of a number. -/
def number (p : Program) (i : TokenId) : Except Fault Nat := do
  let t ← p.token i
  if t.tag = .number then
    return Decimal.value (t.text p.source)
  else
    throw (.notLiteral .number i)

/-- The characters of a string between its quotes. -/
def string (p : Program) (i : TokenId) : Except Fault (List Char) := do
  let t ← p.token i
  if t.tag = .string then
    return (t.text p.source).tail.dropLast
  else
    throw (.notLiteral .string i)

/-- The variable that a token names. -/
def letter (p : Program) (i : TokenId) : Except Fault Letter := do
  let t ← p.token i
  match t.tag, (p.source.drop t.start).head?.bind Letter.ofChar? with
  | .var, some l => return l
  | _, _ => throw (.notLiteral .var i)

/-- A reference that a node must have. -/
def reference : Option Nat → Except Fault Nat
  | some i => .ok i
  | none => .error .missing

end Program

end LineBasic

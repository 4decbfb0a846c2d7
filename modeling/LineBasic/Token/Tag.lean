/-!
# Token tags

What kind of lexeme a token is. Operators, reserved words and built-in functions are types of their own,
so that a tag says which one it is.

## Main definitions

* `Tag`: the kind of a token.
* `Tag.name`: the name under which listings and tables show a tag; `Tag.label` is the same in small letters.
* `Tag.ofName?`: the tag with a given name.
-/

namespace LineBasic

/-- A sign in front of a term. -/
inductive Sign where
  | plus
  | minus
  deriving DecidableEq, Repr

/-- An operator between the factors of a term. -/
inductive Scale where
  | times
  | over
  deriving DecidableEq, Repr

/-- A relational operator. -/
inductive Comparison where
  | eq
  | ne
  | lt
  | le
  | gt
  | ge
  deriving DecidableEq, Repr

/-- A reserved word that is not the name of a function. -/
inductive Keyword where
  | print
  | if
  | then
  | goto
  | input
  | let
  | gosub
  | return
  | clear
  | list
  | run
  | end
  deriving DecidableEq, Repr

/-- A function of the language. -/
inductive Builtin where
  | abs
  | rnd
  | mod
  deriving DecidableEq, Repr

/-- The kind of a token. -/
inductive Tag where
  | invalid
  | eof
  | eol
  | comma
  | lparen
  | rparen
  | number
  | string
  | var
  | sign (s : Sign)
  | scale (o : Scale)
  | comparison (r : Comparison)
  | keyword (k : Keyword)
  | builtin (f : Builtin)
  deriving DecidableEq, Repr

instance : Inhabited Tag := ⟨.invalid⟩

/-- All reserved words. -/
def Keyword.all : List Keyword :=
  [.print, .if, .then, .goto, .input, .let, .gosub, .return, .clear, .list, .run, .end]

/-- How a reserved word is written. -/
def Keyword.spelling : Keyword → String
  | .print => "PRINT"
  | .if => "IF"
  | .then => "THEN"
  | .goto => "GOTO"
  | .input => "INPUT"
  | .let => "LET"
  | .gosub => "GOSUB"
  | .return => "RETURN"
  | .clear => "CLEAR"
  | .list => "LIST"
  | .run => "RUN"
  | .end => "END"

/-- All functions. -/
def Builtin.all : List Builtin := [.abs, .rnd, .mod]

/-- How the name of a function is written. -/
def Builtin.spelling : Builtin → String
  | .abs => "ABS"
  | .rnd => "RND"
  | .mod => "MOD"

/-- How an operator between terms is named. -/
def Sign.name : Sign → String
  | .plus => "PLUS"
  | .minus => "MINUS"

/-- How an operator between factors is named. -/
def Scale.name : Scale → String
  | .times => "MUL"
  | .over => "DIV"

/-- How a relational operator is named. -/
def Comparison.name : Comparison → String
  | .eq => "EQ"
  | .ne => "NE"
  | .lt => "LT"
  | .le => "LTE"
  | .gt => "GT"
  | .ge => "GTE"

namespace Tag

/-- The name of a tag in tables. -/
def name : Tag → String
  | .invalid => "INVALID"
  | .eof => "EOF"
  | .eol => "EOL"
  | .comma => "COMMA"
  | .lparen => "LPAREN"
  | .rparen => "RPAREN"
  | .number => "NUMBER"
  | .string => "STRING"
  | .var => "VARIABLE"
  | .sign s => "OP_" ++ s.name
  | .scale o => "OP_" ++ o.name
  | .comparison r => "OP_" ++ r.name
  | .keyword k => "KEYWORD_" ++ k.spelling
  | .builtin f => "FUNC_" ++ f.spelling

/-- The name of a tag in listings and messages. -/
def label (t : Tag) : String := t.name.map Char.toLower

/-- All tags. -/
def all : List Tag :=
  [.invalid, .eof, .eol, .comma, .lparen, .rparen, .number, .string, .var, .sign .plus,
    .sign .minus, .scale .times, .scale .over, .comparison .eq, .comparison .ne, .comparison .lt,
    .comparison .le, .comparison .gt, .comparison .ge] ++
    Keyword.all.map .keyword ++ Builtin.all.map .builtin

/-- The tag that has a name, if there is one. -/
def ofName? (s : String) : Option Tag := all.find? fun t => t.name == s

/-- The tag of a word in capital letters: reserved words and functions have their own, another single
letter is a variable, and no other word means anything. -/
def ofWord (word : List Char) : Tag :=
  match Keyword.all.find? fun k => k.spelling.toList == word with
  | some k => .keyword k
  | none =>
    match Builtin.all.find? fun f => f.spelling.toList == word with
    | some f => .builtin f
    | none => if word.length = 1 then .var else .invalid

/-- The tag of a character that is a token by itself. -/
def ofSymbol : Char → Tag
  | ',' => .comma
  | '(' => .lparen
  | ')' => .rparen
  | '=' => .comparison .eq
  | '+' => .sign .plus
  | '-' => .sign .minus
  | '*' => .scale .times
  | '/' => .scale .over
  | _ => .invalid

end Tag

end LineBasic

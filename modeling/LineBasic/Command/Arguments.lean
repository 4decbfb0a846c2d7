import LineBasic.Text.DecimalDigit

/-!
# Arguments of the command

The command takes the name of one file and the flags `--debug` and `--help`, also `-h`. A long flag can be cut
short as long as it is clear which one is meant. A negative number is a name, and behind `--` everything is a
name.

## Main definitions

* `Arguments`: what the command was asked to do.
* `ArgumentKind`: what a single argument is.
* `Arguments.parse`: the meaning of all arguments.
-/

namespace LineBasic

/-- A flag of the command. -/
inductive Flag where
  | help
  | debug
  deriving DecidableEq, Repr

/-- How a flag is written at length. -/
def Flag.spelling : Flag → List Char
  | .help => "help".toList
  | .debug => "debug".toList

/-- What a single argument is. -/
inductive ArgumentKind where
  /-- A name. -/
  | name
  /-- A flag. -/
  | flag (f : Flag)
  /-- A flag with a value, which no flag takes. -/
  | valued
  /-- The beginning of more than one flag. -/
  | ambiguous
  /-- A flag that the command does not have. -/
  | unknown
  deriving DecidableEq, Repr

/-- A text without the line feed at its end, if there is one. -/
def withoutLineFeed (cs : List Char) : List Char :=
  if cs.getLast? = some '\n' then cs.dropLast else cs

/-- Whether the characters behind a minus sign make a negative number, which is a name. The digits may be of
any script, and a line feed at the end does not count. -/
def isNegativeNumber (cs : List Char) : Bool :=
  let number := withoutLineFeed cs
  let whole := number.takeWhile isDecimalDigit
  match number.drop whole.length with
  | [] => !whole.isEmpty
  | '.' :: digits => !digits.isEmpty && digits.all isDecimalDigit
  | _ => false

/-- An argument that begins like a flag but is none: with a space inside it is a name. -/
def ArgumentKind.other (argument : List Char) : ArgumentKind :=
  if argument.contains ' ' then .name else .unknown

/-- What an argument is that begins with two minus signs, given the rest. -/
def ArgumentKind.long (cs : List Char) : ArgumentKind :=
  let start := cs.takeWhile (· ≠ '=')
  match [Flag.help, Flag.debug].filter fun f => start.isPrefixOf f.spelling with
  | [] => .other cs
  | [f] => if cs.contains '=' then .valued else .flag f
  | _ => .ambiguous

/-- What an argument is that begins with `-h`, given the rest. Short flags can be written together, also
behind an equality sign, and anything that is no flag is a value. -/
def ArgumentKind.short (cs : List Char) : ArgumentKind :=
  let flags := match cs with
    | '=' :: c :: cs => c :: cs
    | cs => cs
  if flags.all (· = 'h') then .flag .help else .valued

/-- What an argument is. -/
def ArgumentKind.of (argument : String) : ArgumentKind :=
  match argument.toList with
  | '-' :: '-' :: cs => .long cs
  | ['-'] => .name
  | '-' :: 'h' :: cs => .short cs
  | '-' :: cs => if isNegativeNumber cs then .name else .other cs
  | _ => .name

/-- What the command was asked to do. -/
structure Arguments where
  filename : String
  debug : Bool
  deriving DecidableEq, Repr

/-- Why the command does nothing. -/
inductive Usage where
  /-- The arguments are wrong. -/
  | rejected
  /-- It was asked for help. -/
  | help
  deriving DecidableEq, Repr

/-- Whether the flags are in order, from left to right; help is given as soon as it is asked for. Yields
whether `--debug` is among them. -/
def checkFlags : List ArgumentKind → Except Usage Bool
  | [] => .ok false
  | .flag .help :: _ => .error .help
  | .flag .debug :: kinds => (checkFlags kinds).map fun _ => true
  | .name :: kinds => checkFlags kinds
  | .unknown :: kinds => do
    let _ ← checkFlags kinds
    throw .rejected
  | .valued :: _ => .error .rejected
  | .ambiguous :: _ => .error .rejected

/-- The meaning of the arguments. A `--` behind which nothing stands must follow the name directly. -/
def Arguments.parse (arguments : List String) : Except Usage Arguments := do
  let front := arguments.takeWhile (· ≠ "--")
  let kinds := front.map ArgumentKind.of
  if .ambiguous ∈ kinds then
    throw .rejected
  let debug ← checkFlags kinds
  let names := front.filter fun a => ArgumentKind.of a = .name
  match arguments.drop front.length with
  | [] =>
    match names with
    | [filename] => return ⟨filename, debug⟩
    | _ => throw .rejected
  | [_] =>
    match names with
    | [filename] => if front.getLast? = some filename then return ⟨filename, debug⟩ else throw .rejected
    | _ => throw .rejected
  | _ :: behind =>
    match names, behind with
    | [], [filename] => return ⟨filename, debug⟩
    | _, _ => throw .rejected

end LineBasic

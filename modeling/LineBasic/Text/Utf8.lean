import LineBasic.Text.Hex

/-!
# UTF-8

Reading a file's bytes as text and writing text as bytes. A character is a lead byte and as many further
bytes as the lead byte asks for; only the byte after the lead has bounds that depend on it, which rule out
longer forms than needed and surrogates.

## Main definitions

* `Utf8.decode`: the characters that bytes spell, or the first defect among them.
* `Utf8.encode`: the bytes of a text.
* `Utf8.Defect.message`: a defect in one line.
-/

namespace LineBasic.Utf8

/-- What can be wrong with bytes. -/
inductive Reason where
  /-- No character begins with this byte. -/
  | invalidStart
  /-- A character that has begun cannot go on with the byte that follows. -/
  | invalidContinuation
  /-- The bytes end inside a character. -/
  | unexpectedEnd
  deriving DecidableEq, Repr

/-- The words for a reason. -/
def Reason.words : Reason → String
  | .invalidStart => "invalid start byte"
  | .invalidContinuation => "invalid continuation byte"
  | .unexpectedEnd => "unexpected end of data"

/-- The first bytes that spell no character: what is wrong, where they begin, how many they are, and the
first of them. -/
structure Defect where
  reason : Reason
  position : Nat
  length : Nat
  byte : UInt8
  deriving DecidableEq, Repr

/-- A defect in one line. A single byte is shown, of several bytes only their place. -/
def Defect.message (d : Defect) : String :=
  let place :=
    if d.length = 1 then
      "byte 0x" ++ String.ofList (Hex.number 2 d.byte.toNat) ++ " in position " ++ toString d.position
    else
      "bytes in position " ++ toString d.position ++ "-" ++ toString (d.position + d.length - 1)
  "'utf-8' codec can't decode " ++ place ++ ": " ++ d.reason.words

/-- A character that has begun: its lead byte, the bytes read so far, the value they spell, the count of
bytes still owed, and the bounds of the next one. -/
structure Pending where
  lead : UInt8
  read : Nat
  value : Nat
  owed : Nat
  low : Nat
  high : Nat

/-- The character that a lead byte of more than one byte begins. -/
def Pending.ofLead? (b : UInt8) : Option Pending :=
  let n := b.toNat
  if 0xC2 ≤ n ∧ n ≤ 0xDF then some ⟨b, 1, n - 0xC0, 1, 0x80, 0xBF⟩
  else if n = 0xE0 then some ⟨b, 1, 0, 2, 0xA0, 0xBF⟩
  else if n = 0xED then some ⟨b, 1, 0xD, 2, 0x80, 0x9F⟩
  else if 0xE1 ≤ n ∧ n ≤ 0xEF then some ⟨b, 1, n - 0xE0, 2, 0x80, 0xBF⟩
  else if n = 0xF0 then some ⟨b, 1, 0, 3, 0x90, 0xBF⟩
  else if 0xF1 ≤ n ∧ n ≤ 0xF3 then some ⟨b, 1, n - 0xF0, 3, 0x80, 0xBF⟩
  else if n = 0xF4 then some ⟨b, 1, 4, 3, 0x80, 0x8F⟩
  else none

/-- The characters that bytes spell. The position is that of the first byte, or of the lead byte of the
character that has begun. -/
def decodeFrom : (position : Nat) → Option Pending → List UInt8 → Except Defect (List Char)
  | _, none, [] => .ok []
  | position, some p, [] => .error ⟨.unexpectedEnd, position, p.read, p.lead⟩
  | position, none, b :: bs =>
    if b.toNat < 0x80 then
      (decodeFrom (position + 1) none bs).map (Char.ofNat b.toNat :: ·)
    else
      match Pending.ofLead? b with
      | some p => decodeFrom position (some p) bs
      | none => .error ⟨.invalidStart, position, 1, b⟩
  | position, some p, b :: bs =>
    if p.low ≤ b.toNat ∧ b.toNat ≤ p.high then
      let value := 64 * p.value + (b.toNat - 0x80)
      if p.owed = 1 then
        (decodeFrom (position + p.read + 1) none bs).map (Char.ofNat value :: ·)
      else
        decodeFrom position (some ⟨p.lead, p.read + 1, value, p.owed - 1, 0x80, 0xBF⟩) bs
    else
      .error ⟨.invalidContinuation, position, p.read, p.lead⟩

/-- The characters that bytes spell. -/
def decode (bs : List UInt8) : Except Defect (List Char) := decodeFrom 0 none bs

/-- The bytes of a text. -/
def encode (cs : List Char) : List UInt8 := cs.flatMap String.utf8EncodeChar

/-- A text whose lines end with a line feed alone: a carriage return with a line feed after it becomes one
line end, and so does a carriage return alone. -/
def normalizeLineEnds : List Char → List Char
  | [] => []
  | '\r' :: '\n' :: cs => '\n' :: normalizeLineEnds cs
  | '\r' :: cs => '\n' :: normalizeLineEnds cs
  | c :: cs => c :: normalizeLineEnds cs

end LineBasic.Utf8

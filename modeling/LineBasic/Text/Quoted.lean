import LineBasic.Text.Hex
import LineBasic.Text.Printable

/-!
# Quoted names

A file name in a message stands between quotes, with everything that cannot be shown escaped.

## Main definitions

* `quotedName`: a name between single quotes, or between double quotes if it holds a single quote and no
  double one.
-/

namespace LineBasic

/-- One character of a quoted name. -/
def escapeChar (quote c : Char) : List Char :=
  if c = quote || c = '\\' then ['\\', c]
  else if c = '\n' then ['\\', 'n']
  else if c = '\r' then ['\\', 'r']
  else if c = '\t' then ['\\', 't']
  else if isPrintable c then [c]
  else if c.toNat < 0x100 then '\\' :: 'x' :: Hex.number 2 c.toNat
  else if c.toNat < 0x10000 then '\\' :: 'u' :: Hex.number 4 c.toNat
  else '\\' :: 'U' :: Hex.number 8 c.toNat

/-- The single quote. -/
def apostrophe : Char := Char.ofNat 39

/-- A name between quotes. -/
def quotedName (name : String) : String :=
  let cs := name.toList
  let quote := if cs.contains apostrophe && !cs.contains '"' then '"' else apostrophe
  String.ofList (quote :: cs.flatMap (escapeChar quote) ++ [quote])

end LineBasic

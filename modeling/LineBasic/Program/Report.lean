import LineBasic.Program.Basic
import LineBasic.Token.Mark

/-!
# Reports of syntax errors

A report names the line and the complaint and shows the source line with the offending token marked. A
token that is no lexeme of the language is blamed for any error that it causes.

## Main definitions

* `SyntaxError.report`: the report of a syntax error.
-/

namespace LineBasic

/-- The name of a tag as it stands in a report. -/
def Tag.quotedLabel (t : Tag) : String := "`" ++ t.label ++ "`"

/-- What a report says about an error at a token. -/
def Complaint.explain (c : Complaint) (found : Tag) : String :=
  if found = .invalid then
    "invalid token"
  else
    match c.wanted? with
    | some wanted => "expect " ++ wanted.quotedLabel ++ " got " ++ found.quotedLabel
    | none => c.name

/-- The report of a syntax error in a source text. -/
def SyntaxError.report (source : List Char) (tokens : List Token) (e : SyntaxError) : String :=
  match tokens[e.token]? with
  | some t =>
    "line " ++ toString (lineNumber source t.start) ++ ": error: " ++ e.complaint.explain t.tag ++ "\n" ++
      String.ofList (t.marked source)
  | none => ""

end LineBasic

import LineBasic.Grammar.Tree

/-!
# Syntax errors

What a parser can find wrong, and where.

## Main definitions

* `SyntaxError`: what was wanted and the position of the token that stands there instead.
* `SyntaxError.message`: the error in one line.
-/

namespace LineBasic

/-- What is wrong with a program. -/
inductive Complaint where
  /-- A certain token is missing. -/
  | expectToken (wanted : Tag)
  /-- THEN has no statement behind it. -/
  | expectStatement
  /-- The sides of a condition have no relational operator between them. -/
  | expectComparison
  /-- No operand starts here. -/
  | expectExpression
  /-- Expressions and IF statements stand too deep inside one another. -/
  | nestingTooDeep
  deriving DecidableEq, Repr

namespace Complaint

/-- The name of a complaint. -/
def name : Complaint → String
  | expectToken _ => "expect_token"
  | expectStatement => "expect_statement"
  | expectComparison => "expect_relop"
  | expectExpression => "expect_expression"
  | nestingTooDeep => "nesting_too_deep"

/-- The tag that a complaint asks for. -/
def wanted? : Complaint → Option Tag
  | expectToken t => some t
  | _ => none

end Complaint

/-- The first syntax error of a program: the complaint and the position of the offending token. -/
structure SyntaxError where
  complaint : Complaint
  token : TokenId
  deriving DecidableEq, Repr

/-- The error in one line. -/
def SyntaxError.message (e : SyntaxError) : String :=
  let place := " at token " ++ toString e.token
  match e.complaint.wanted? with
  | some t => e.complaint.name ++ " " ++ t.name ++ place
  | none => e.complaint.name ++ place

/-- Why parsing stopped. -/
inductive ParseFailure where
  /-- The program breaks a rule of the grammar. -/
  | wrong (e : SyntaxError)
  /-- The list of tags ended where a tag was wanted. -/
  | outOfTokens
  deriving DecidableEq, Repr

end LineBasic

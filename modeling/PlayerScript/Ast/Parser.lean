/-
The parser: each statement and each expression spends one level of the nesting that is allowed.
A range that is too deep is refused; the limit changes nothing else.
-/
import PlayerScript.Ast.Parser.Statement
import PlayerScript.Token.Lexer

namespace PlayerScript.Ast

mutual

/-- Parses a range as an expression, within a number of levels. -/
def expressionWithin : Nat → Range → Parse Expr
  | 0, r => if r.items.isEmpty then r.missing "expression" else .fault .nestingTooDeep r.span
  | depth + 1, r =>
    if r.items.isEmpty then r.missing "expression"
    else expressionStep ⟨expressionWithin depth, statementWithin depth⟩ r

/-- Parses the statement at the front of a range, within a number of levels. -/
def statementWithin : Nat → Bool → Range → Parse Parsed
  | 0, _, r => if r.items.isEmpty then r.missing "statement" else .fault .nestingTooDeep r.span
  | depth + 1, clauseNext, r =>
    if r.items.isEmpty then r.missing "statement"
    else statementStep ⟨expressionWithin depth, statementWithin depth⟩ clauseNext r

end

/-- The parsers for a number of levels. -/
def parsersWithin (depth : Nat) : Parsers := ⟨expressionWithin depth, statementWithin depth⟩

/-- The items of a source text. -/
def itemsOf (source : List Char) : Except Error (List Item) :=
  match Token.tokenize source with
  | .ok tokens => Item.group? source tokens
  | .error e => .error e

/-- Parses source text as a list of statements nested at most `maxDepth` deep. Functions without a
name get the names that follow the first `minted` ones; the count is returned in any case. -/
def parseStatements (source : List Char) (maxDepth minted : Nat) :
    Except Error (List Stmt) × Nat :=
  match itemsOf source with
  | .error e => (.error e, minted)
  | .ok items =>
    match statements (parsersWithin maxDepth) false ⟨none, items⟩ minted with
    | (.ok stmts, minted') => (.ok stmts, minted')
    | (.error d, minted') => (.error (d.toError source), minted')

end PlayerScript.Ast

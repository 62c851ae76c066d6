import Utterance.Grammar.Reading

/-!
# Expressions

Operators bind from loose to tight: `and` and `or`, comparisons, `&` and `^`, `+` and `-`, `*` and `/` and `%`,
signs, then calls and `@`. All binary operators group to the left, and `not` takes everything after it.

The rules are open: what they need of other rules they get through `Recursion`, and `Grammar.Rules` closes them.
-/

namespace Utterance.Grammar

open Reading

/-- The rules that others call recursively. -/
inductive Part where
  | statements | statement | logic | factor
deriving DecidableEq, Repr

abbrev Recursion := Part → Reading Node

variable (rec : Recursion)

/-- Reads `operator operand` as often as possible after a left operand. -/
def operatorsAfter (operand : Reading Node) (isOperator : Token → Bool) : Nat → Node → Reading Node
  | 0, left => return left
  | n + 1, left => do
    let op ← token
    if isOperator op then
      advance
      let right ← operand
      operatorsAfter operand isOperator n (.operation left op right)
    else return left

/-- Operands with operators in between, grouped to the left. -/
def operators (operand : Reading Node) (isOperator : Token → Bool) : Reading Node := do
  let left ← operand
  operatorsAfter operand isOperator (← bound) left

def isOneOf (kinds : List Token.Kind) (t : Token) : Bool := kinds.contains t.kind

def term : Reading Node := operators (rec .factor) (isOneOf [.mul, .div, .mod])

def arithmetic : Reading Node := operators (term rec) (isOneOf [.plus, .minus])

def setOperation : Reading Node := operators (arithmetic rec) (isOneOf [.ampersand, .caret])

def comparison : Reading Node :=
  operators (setOperation rec) (isOneOf [.ee, .ne, .lt, .gt, .lte, .gte])

/-- An expression: `not` before an expression, or comparisons joined by `and` and `or`. -/
def logic : Reading Node := do
  if ← isWord "not" then
    let op ← token
    advance
    return .signed op (← rec .logic)
  else
    reword (operators (comparison rec) fun t => t.isKeyword "and" || t.isKeyword "or")
      "Expected value, identifier, 'not', or expression"

/-- Expressions with commas in between, up to a closing bracket. -/
def bracketed (closing : Token.Kind) (details : String) : Reading (List Node) := do
  if ← skipKind closing then return []
  else
    let items ← commaSeparated (rec .logic)
    expectKind closing details
    return items

def collection (opening closing : Token.Kind) (expected details : String)
    (make : Span → List Node → Node) : Reading Node := do
  let first ← start
  expectKind opening expected
  let items ← bracketed rec closing details
  return make ⟨first, ← stop⟩ items

def tuple : Reading Node :=
  collection rec .langle .rangle "Expected '<'" "Expected ',' or '>'" .tuple

def set : Reading Node :=
  collection rec .lsetbrace .rsetbrace "Expected '\x7b:'" "Expected ',' or ':\x7d'" .set

def clause : Reading Clause := do
  let name ← identifier "Expected identifier"
  expectWord "in" "Expected 'in' in list comprehension"
  let items ← rec .logic
  let conditions ← many (skipWord "where") (rec .logic)
  return (name, items, conditions)

def list : Reading Node := do
  let from_ ← start
  expectKind .lsquare "Expected '['"
  if ← skipKind .rsquare then return .list ⟨from_, ← stop⟩ []
  else
    let first ← rec .logic
    if ← isWord "cycle" then
      let clauses ← many (skipWord "cycle") (clause rec)
      expectKind .rsquare "Expected ']' to close list comprehension"
      return .comprehension ⟨from_, ← stop⟩ first clauses
    else
      let more ← many (skipKind .comma) (rec .logic)
      expectKind .rsquare "Expected ',' or ']'"
      return .list ⟨from_, ← stop⟩ (first :: more)

def pair : Reading (Node × Node) := do
  let key ← rec .logic
  expectKind .colon "Expected ':'"
  return (key, ← rec .logic)

def dict : Reading Node := do
  let first ← start
  expectKind .lcurly "Expected '\x7b'"
  if ← skipKind .rcurly then return .dict ⟨first, ← stop⟩ []
  else
    let pairs ← commaSeparated (pair rec)
    expectKind .rcurly "Expected ',' or '\x7d'"
    return .dict ⟨first, ← stop⟩ pairs

def parenthesised : Reading Node := do
  expectKind .lparen "Expected '('"
  let n ← rec .logic
  expectKind .rparen "Expected ')'"
  return n

def lambda : Reading Node := do
  let first ← start
  expectWord "lambda" "Expected 'lambda'"
  let params ←
    if ← isKind .identifier then commaSeparated (identifier "Expected identifier") else pure []
  expectKind .arrow "Expected '=>'"
  let body ← rec .logic
  return .lambda ⟨first, ← stop⟩ params body

end Utterance.Grammar

import Utterance.Grammar.Statements

/-!
# The grammar as a whole

`read` closes the recursion of the rules with a bound on their depth. Between two rules of the recursion that pass
no token there are at most three others, so that a small multiple of the number of tokens is bound enough.
`Grammar.parse` reads a whole program, and `Grammar.parseRule` a single rule.
-/

namespace Utterance.Grammar

open Reading

/-- Reads a part of the grammar, with a bound on the depth. -/
def read : Nat → Recursion
  | 0, _ => exhaust
  | n + 1, part =>
    match part with
    | .statements => return (← statements (read n)).1
    | .statement => return (← statement (read n)).1
    | .logic => logic (read n)
    | .factor => factor (read n)

/-- The rules that can be read on their own. -/
inductive Rule where
  | program | statements | statement | expression | logic | comparison | setOperation | arithmetic | term | factor
  | call | atom | list | tuple | set | dict | conditional | cycle | whileLoop | repeatLoop | functionDefinition
  | lambda | attemptHandle | switch | bring | modulePath | share
deriving DecidableEq, Repr

/-- What a rule reads. -/
inductive Found where
  | node (n : Node)
  | token (t : Token)

/-- A whole program: statements up to the end. When something else follows, the count of tokens taken back before
it is kept with the diagnostic. -/
def program (rec : Recursion) : Reading (Except Diagnostic Node × Nat) := do
  let (n, reversed) ← statements rec
  if ← isKind .eof then return (.ok n, reversed)
  else
    let d := Diagnostic.invalidSyntax (← start) (← stop) "Unexpected token"
    return (.error d, reversed)

/-- What came of reading a rule. -/
structure Outcome where
  /-- The index of the current token afterwards. -/
  idx : Nat
  /-- How many tokens were passed. -/
  passed : Nat
  /-- How many tokens were taken back after the last try that failed. -/
  reversed : Nat
  result : Except Diagnostic Found

namespace Outcome

def ofReply : Reply (Except Diagnostic Found × Nat) × Nat → Except Fault (Option Outcome)
  | (.ok (result, reversed) idx, passed) => .ok (some ⟨idx, passed, reversed, result⟩)
  | (.fail d idx, passed) => .ok (some ⟨idx, passed, 0, .error d⟩)
  | (.fault f, _) => .error f
  | (.exhausted, _) => .ok none

end Outcome

/-- A reading without tokens taken back, as an outcome. -/
def plainly (p : Reading Node) : Reading (Except Diagnostic Found × Nat) :=
  return (.ok (.node (← p)), 0)

def counted (p : Reading (Node × Nat)) : Reading (Except Diagnostic Found × Nat) := do
  let (n, reversed) ← p
  return (.ok (.node n), reversed)

def Rule.reading (rec : Recursion) : Rule → Reading (Except Diagnostic Found × Nat)
  | .program => do
    let (result, reversed) ← Grammar.program rec
    return (result.map .node, reversed)
  | .statements => counted (Grammar.statements rec)
  | .statement => counted (Grammar.statement rec)
  | .expression => plainly (Grammar.expression rec)
  | .logic => plainly (Grammar.logic rec)
  | .comparison => plainly (Grammar.comparison rec)
  | .setOperation => plainly (Grammar.setOperation rec)
  | .arithmetic => plainly (Grammar.arithmetic rec)
  | .term => plainly (Grammar.term rec)
  | .factor => plainly (Grammar.factor rec)
  | .call => plainly (Grammar.call rec)
  | .atom => plainly (Grammar.atom rec)
  | .list => plainly (Grammar.list rec)
  | .tuple => plainly (Grammar.tuple rec)
  | .set => plainly (Grammar.set rec)
  | .dict => plainly (Grammar.dict rec)
  | .conditional => plainly (Grammar.conditional rec)
  | .cycle => plainly (Grammar.cycle rec)
  | .whileLoop => plainly (Grammar.whileLoop rec)
  | .repeatLoop => plainly (Grammar.repeatLoop rec)
  | .functionDefinition => plainly (Grammar.functionDefinition rec)
  | .lambda => plainly (Grammar.lambda rec)
  | .attemptHandle => plainly (Grammar.attemptHandle rec)
  | .switch => plainly (Grammar.switch rec)
  | .bring => plainly Grammar.bring
  | .modulePath => return (.ok (.token (← Grammar.modulePath)), 0)
  | .share => plainly Grammar.share

def Input.ofList (lexemes : List Lexeme) : Input :=
  ⟨lexemes.toArray, lexemes.getLast?.getD (.token default)⟩

/-- A depth that no reading of so many tokens exceeds. -/
def depthFor (count : Nat) : Nat := 8 * (count + 2)

def parseRule (rule : Rule) (lexemes : List Lexeme) (from_ : Nat) : Except Fault (Option Outcome) :=
  Outcome.ofReply ((rule.reading (read (depthFor lexemes.length))).run (.ofList lexemes) from_)

/-- Why there is no program. -/
inductive Refusal where
  | diagnostic (d : Diagnostic)
  | fault (f : Fault)
  | exhausted

def parse (lexemes : List Lexeme) : Except Refusal Node :=
  match program (read (depthFor lexemes.length)) (.ofList lexemes) 0 with
  | .ok (.ok n, _) _ => .ok n
  | .ok (.error d, _) _ => .error (.diagnostic d)
  | .fail d _ => .error (.diagnostic d)
  | .fault f => .error (.fault f)
  | .exhausted => .error .exhausted

end Utterance.Grammar

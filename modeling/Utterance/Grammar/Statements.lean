import Utterance.Grammar.Blocks

/-!
# Statements

Statements bring names in, share them, assign, show, return and leave loops; every expression is a statement too.
Line ends and semicolons stand between statements. `statements` stops before the first thing that is none, and
says how many tokens it took back there.
-/

namespace Utterance.Grammar

open Reading

variable (rec : Recursion)

def atom : Reading Node := do
  let t ← token
  match t.kind with
  | .int | .float =>
    advance
    return .ofNumber t
  | .string =>
    advance
    return .ofString t
  | .regex =>
    advance
    return .ofRegex t
  | .identifier =>
    advance
    return .ofName t
  | .lparen => parenthesised rec
  | .lsquare => list rec
  | .langle => tuple rec
  | .lcurly => dict rec
  | .lsetbrace => set rec
  | _ =>
    if t.isKeyword "true" then
      advance
      return .ofNumber ⟨.int, .int 1, t.start, t.stop⟩
    else if t.isKeyword "false" then
      advance
      return .ofNumber ⟨.int, .int 0, t.start, t.stop⟩
    else if t.isKeyword "when" then conditional rec
    else if t.isKeyword "cycle" then cycle rec
    else if t.isKeyword "as long as" then whileLoop rec
    else if t.isKeyword "repeat while" then repeatLoop rec
    else if t.isKeyword "make function" then functionDefinition rec
    else if t.isKeyword "lambda" then lambda rec
    else if t.isKeyword "attempt" then attemptHandle rec
    else if t.isKeyword "check" then switch rec
    else
      refuse ("Expected int, float, string, identifier, 'true', 'false', '+', '-', '(', '[', '<', 'when', 'cycle', " ++
        "'as long as', 'repeat while', 'make function', 'lambda', 'attempt', or 'check'")

/-- Reads `@ key` as often as possible after a collection. -/
def elementsAfter : Nat → Node → Reading Node
  | 0, n => return n
  | fuel + 1, n => do
    if ← skipKind .atSign then
      let key ← atom rec
      elementsAfter fuel (.element n key)
    else return n

/-- An atom, called once or looked into any number of times. -/
def call : Reading Node := do
  let n ← atom rec
  if ← skipKind .lparen then
    return .call n (← bracketed rec .rparen "Expected ',' or ')'")
  else elementsAfter rec (← bound) n

def factor : Reading Node := do
  let t ← token
  if t.kind == .plus || t.kind == .minus then
    advance
    return .signed t (← rec .factor)
  else call rec

/-- An assignment, after its `put`. A place in a collection may be given after the name; it is read and dropped. -/
def putIn : Reading Node := do
  let value ← rec .logic
  expectWord "in" "Expected 'in'"
  let name ← identifier "Expected identifier"
  if ← skipKind .atSign then
    let _ ← rec .logic
    return .assignTo name value
  else return .assignTo name value

def keepAs : Reading Node := do
  let value ← rec .logic
  expectWord "as" "Expected 'as'"
  let name ← identifier "Expected identifier"
  return .keepAs name value

/-- Output, after its `show`: a call of the function of that name, which is placed at the next token. -/
def showing : Reading Node := do
  let value ← rec .logic
  return .call (.ofName ⟨.identifier, .text "show", ← start, ← stop⟩) [value]

def expression : Reading Node := do
  if ← skipWord "put" then putIn rec
  else if ← skipWord "keep" then keepAs rec
  else if ← skipWord "show" then showing rec
  else rec .logic

/-- The path of a module: names with slashes in between, as one token. -/
def modulePath : Reading Token := do
  let first ← identifier "Expected module name"
  let more ← many (skipKind .div) (identifier "Expected path component after separator")
  let path := "/".intercalate ((first :: more).map Token.text)
  return ⟨.identifier, .text path, first.start, ← start⟩

def bringItem (details : String) : Reading Item := do
  let name ← identifier details
  if ← skipWord "as" then return (name, some (← identifier "Expected identifier for alias"))
  else return (name, none)

/-- Brings a module in, or some of its names; the first word is passed unseen. -/
def bring : Reading Node := do
  advance
  if ← skipWord "in" then return .bringFrom (← modulePath) none
  else
    let first ← bringItem "Expected identifier or 'in'"
    let more ← many (skipKind .comma) (bringItem "Expected identifier")
    expectWord "from" "Expected 'from'"
    return .bringFrom (← modulePath) (some (first :: more))

def share : Reading Node := do
  let first ← start
  advance
  let names ← commaSeparated (identifier "Expected identifier")
  return .share ⟨first, ← start⟩ names

/-- A returned value, after its `give`: an expression if one can be read, with the number of tokens taken back
otherwise. -/
def giving (from_ : Position) : Reading (Node × Nat) := do
  match ← attempt (expression rec) with
  | .ok value => return (.give ⟨from_, ← start⟩ (some value), 0)
  | .error reversed => return (.give ⟨from_, ← start⟩ none, reversed)

/-- A statement, and how many tokens were taken back in it. -/
def statement : Reading (Node × Nat) := do
  let from_ ← start
  if ← isWord "bring" then return (← bring, 0)
  else if ← isWord "share" then return (← share, 0)
  else if ← skipWord "give" then giving rec from_
  else if ← skipWord "cut" then return (.cut ⟨from_, ← start⟩, 0)
  else if ← skipWord "skip" then return (.skip ⟨from_, ← start⟩, 0)
  else
    let n ← reword (expression rec)
      ("Expected 'put', 'keep', 'show', 'when', 'cycle', 'as long as', 'attempt', 'make function', 'give', " ++
        "or expression")
    return (n, 0)

/-- Further statements, each after a line end, and how many tokens were taken back at the end. -/
def statementsAfter : Nat → Reading (List Node × Nat)
  | 0 => return ([], 0)
  | n + 1 => do
    if (← newlines) = 0 then return ([], 0)
    else
      match ← attempt (rec .statement) with
      | .ok s =>
        let (more, reversed) ← statementsAfter n
        return (s :: more, reversed)
      | .error reversed => return ([], reversed)

/-- Statements as one list, and how many tokens were taken back at the end. -/
def statements : Reading (Node × Nat) := do
  let from_ ← start
  let _ ← newlines
  if ← isKind .eof then return (.list ⟨from_, ← stop⟩ [], 0)
  else
    let first ← rec .statement
    let (more, reversed) ← statementsAfter rec (← bound)
    return (.list ⟨from_, ← stop⟩ (first :: more), reversed)

end Utterance.Grammar

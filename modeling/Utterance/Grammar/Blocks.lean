import Utterance.Grammar.Expressions

/-!
# Blocks

Conditionals, loops, functions, handlers and choices by value. After a colon, a line end opens a block of
statements up to `end`, and anything else is a single statement.
-/

namespace Utterance.Grammar

open Reading

variable (rec : Recursion)

def colon : Reading Unit := expectKind .colon "Expected ':'"

def endWord : Reading Unit := expectWord "end" "Expected 'end'"

/-- A body after its colon: a block up to `end`, or one statement. -/
def body : Reading Node := do
  if ← skipKind .newline then
    let block ← rec .statements
    endWord
    return block
  else rec .statement

/-- What can follow the first block of a conditional: more conditions with their blocks, then a block for all other
cases. A condition whose colon no line end follows is passed without effect. -/
def alternatives : Nat → Reading (List Case × Option (Node × Bool))
  | 0 => return ([], none)
  | n + 1 => do
    if ← skipWord "otherwise" then
      if ← skipWord "when" then
        let condition ← rec .logic
        colon
        if ← skipKind .newline then
          let block ← rec .statements
          let (cases, otherwise) ← alternatives n
          return ((condition, block, true) :: cases, otherwise)
        else alternatives n
      else
        colon
        if ← skipKind .newline then return ([], some (← rec .statements, true)) else return ([], none)
    else return ([], none)

def conditional : Reading Node := do
  expectWord "when" "Expected 'when'"
  let condition ← rec .logic
  colon
  if ← skipKind .newline then
    let block ← rec .statements
    let (cases, otherwise) ← alternatives rec (← bound)
    endWord
    return .choose (condition, block, true) cases otherwise
  else
    return .choose (condition, ← rec .statement, false) [] none

def counting : Reading Node := do
  let name ← identifier "Expected identifier"
  expectWord "from" "Expected 'from'"
  let first ← rec .logic
  expectWord "to" "Expected 'to'"
  let last ← rec .logic
  let step ← if ← skipWord "step" then pure (some (← rec .logic)) else pure none
  colon
  return .countTo name first last step (← body rec)

/-- A loop over the items of a collection needs a block; where none follows, its head is passed over and a counting
loop is read. -/
def cycle : Reading Node := do
  expectWord "cycle" "Expected 'cycle'"
  if ← skipWord "each" then
    let name ← identifier "Expected identifier"
    expectWord "through" "Expected 'through'"
    let items ← rec .logic
    colon
    if ← isKind .newline then return .eachOf name items (← body rec) else counting rec
  else counting rec

def whileLoop : Reading Node := do
  expectWord "as long as" "Expected 'as long as'"
  let condition ← rec .logic
  colon
  return .loopWhile condition (← body rec)

def repeatLoop : Reading Node := do
  expectWord "repeat while" "Expected 'repeat while'"
  let condition ← rec .logic
  colon
  return .repeatWhile (← body rec) condition

/-- The parameters of a function, up to the closing parenthesis. -/
def parameters : Reading (List Token) := do
  if ← isKind .identifier then
    let params ← commaSeparated (identifier "Expected identifier")
    expectKind .rparen "Expected ',' or ')'"
    return params
  else
    expectKind .rparen "Expected identifier or ')'"
    return []

def functionDefinition : Reading Node := do
  expectWord "make function" "Expected 'make function'"
  let name ← if ← isKind .identifier then pure (some (← identifier "")) else pure none
  expectKind .lparen "Expected '('"
  let params ← parameters
  colon
  return .define name params (← body rec)

def handlerName : Reading (Option Token) := do
  if ← skipWord "as" then return some (← identifier "Expected identifier") else return none

/-- An attempt with its handler. After an attempted block, line ends may come before the handler; after a single
attempted statement the handler is a single statement, too. -/
def attemptHandle : Reading Node := do
  expectWord "attempt" "Expected 'attempt'"
  colon
  if ← skipKind .newline then
    let block ← rec .statements
    endWord
    let _ ← newlines
    expectWord "handle" "Expected 'handle'"
    let name ← handlerName
    colon
    return .attemptOr block (← body rec) name
  else
    let statement ← rec .statement
    expectWord "handle" "Expected 'handle'"
    let name ← handlerName
    colon
    return .attemptOr statement (← rec .statement) name

/-- The body of a case: a block, or a statement with the line end after it. -/
def caseBody : Reading (Node × Bool) := do
  if ← skipKind .newline then return (← rec .statements, true)
  else
    let statement ← rec .statement
    let _ ← skipKind .newline
    return (statement, false)

/-- A case of a choice by value, after its `whether`. -/
def caseClause : Reading Case := do
  let value ← rec .logic
  colon
  let (chosen, block) ← caseBody rec
  let _ ← newlines
  return (value, chosen, block)

def switch : Reading Node := do
  expectWord "check" "Expected 'check'"
  let subject ← rec .logic
  colon
  expectKind .newline "Expected newline after ':'"
  let _ ← newlines
  let cases ← many (skipWord "whether") (caseClause rec)
  let default ←
    if ← skipWord "default" then
      colon
      pure (some (← caseBody rec))
    else pure none
  let _ ← newlines
  expectWord "end" "Expected 'whether', 'default', or 'end'"
  return .select subject cases default

end Utterance.Grammar

import Utterance.Session

/-!
# The interactive shell

The shell reads a line, or the lines of a block, runs them and shows what they give. A block starts with one of a few
words and ends with the line that closes it; its lines are indented on the way.
-/

namespace Utterance.Shell

open Eval

def blockStarters : List String := ["make function", "when", "cycle", "as long as", "repeat", "attempt"]

def trimmed (s : String) : List Char := Text.trim Text.isBlank s.toList

def startsWith (start : String) (s : List Char) : Bool := start.toList.isPrefixOf s

def endsWith (stop : String) (s : List Char) : Bool := stop.toList.isSuffixOf s

def startsBlock (s : List Char) : Bool := blockStarters.any (startsWith · s)

def endsBlock (s : List Char) : Bool := endsWith "end;" s

/-- How deeply the next line of a block lies: the blocks that are open, and the steps of its indentation. -/
structure Depth where
  blocks : Nat
  indent : Int

namespace Depth

def first : Depth := ⟨1, 1⟩

def blanks (d : Depth) : String := String.ofList (List.replicate (4 * d.indent.toNat) ' ')

def after (d : Depth) (line : List Char) : Depth :=
  if endsBlock line then ⟨d.blocks - 1, d.indent - 1⟩
  else
    let opens := startsBlock line
    let deeper := opens || startsWith "otherwise:" line || startsWith "handle" line
    ⟨if opens then d.blocks + 1 else d.blocks, if deeper && endsWith ":" line then d.indent + 1 else d.indent⟩

end Depth

def ask (prompt : String) : Eval String := do
  print prompt
  readLine

/-- Reads the lines of a block up to the one that closes it; `left` bounds their number. -/
def blockLines : Nat → Depth → Eval (List String)
  | 0, _ => throw .exhausted
  | left + 1, d => do
    let line ← ask ("...  > " ++ d.blanks)
    let next := d.after (trimmed line)
    if next.blocks = 0 then return [d.blanks ++ line]
    else return (d.blanks ++ line) :: (← blockLines left next)

def linesLeft : Eval Nat := return (← get).input.length + 2

/-- Reads the rest of a block; nothing if the user gives up. -/
def readBlock (line : String) : Eval (Option String) :=
  tryCatch (do
    let lines ← blockLines (← linesLeft) .first
    return some ("\n".intercalate (line :: lines))) fun
    | .interrupt | .fault .endOfInput => do
      printLine "\nBlock input cancelled"
      return none
    | s => throw s

def isZero (r : Ref) : Eval Bool := do
  match ← payload r with
  | .number s => return s.isZero
  | _ => return false

def allZero : List Ref → Eval Bool
  | [] => return true
  | r :: rest => do if ← isZero r then allZero rest else return false

def printValue (r : Ref) : Eval Unit := do printLine (← quoted r)

/-- Shows the value of a single statement, unless it is zero or a list of zeros. -/
def showSingle (r : Ref) : Eval Unit := do
  match ← payload r with
  | .list es => if ← allZero es.toList then return () else printValue r
  | _ => if ← isZero r then return () else printValue r

/-- Shows the value of the last of several statements, unless it is zero. -/
def showLast (rs : List Ref) : Eval Unit := do
  match rs.getLast? with
  | some r => if ← isZero r then return () else printValue r
  | none => return ()

/-- Shows what a program gives: a list with a value for each statement. -/
def showResult (r : Ref) : Eval Unit := do
  match ← payload r with
  | .list es =>
    match es.toList with
    | [] => return ()
    | [e] => showSingle e
    | rs => showLast rs
  | _ => if ← isZero r then return () else printValue r

def showEnding (ending : Ending) : Eval Unit := do
  match ending with
  | .error d => printLine (← lift d.render)
  | .ok none => return ()
  | .ok (some r) => showResult r

def turn : Eval Unit := do
  let line ← ask "uttr > "
  let start := trimmed line
  if start.isEmpty then return ()
  else if startsBlock start && !endsBlock start then
    match ← readBlock line with
    | some text => showEnding (← Session.run "<stdin>" text)
    | none => return ()
  else showEnding (← Session.run "<stdin>" line)

/-- Takes turns until the input ends; a fault ends a turn only. -/
def turns : Nat → Eval Unit
  | 0 => throw .exhausted
  | left + 1 => do
    let goesOn ← tryCatch (do turn; return true) fun
      | .interrupt | .fault .endOfInput => do
        printLine "\n\nGoodbye!"
        return false
      | .fault f => do
        printLine ("Unexpected error: " ++ f.message)
        return true
      | s => throw s
    if goesOn then turns left else return ()

def greeting : List String :=
  let rule := String.ofList (List.replicate 60 '=')
  [rule, "UTTR v1.0 - Understandable Translation Tool for Routines", rule, "Type your code and press Enter.",
    "Type 'exit();' or press Ctrl+C to quit.", "Type 'help();' for quick reference.",
    "For multi-line blocks, end with 'end;' and press Enter.", ""]

def interactive : Eval Unit := do
  greeting.forM printLine
  turns (← linesLeft)

end Utterance.Shell

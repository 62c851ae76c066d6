import Utterance.Shell.Interactive

/-!
# Running files

With a file name, the shell runs the file; without one, it is interactive. `listTokens` shows the tokens of a file.
-/

namespace Utterance.Shell

open Eval

/-- Shows how the program of a file ended; only an empty program shows its value. -/
def showFileEnding (ending : Ending) : Eval Unit := do
  match ending with
  | .error d => printLine (← lift d.render)
  | .ok none => return ()
  | .ok (some r) =>
    match ← payload r with
    | .list es => if es.isEmpty then printValue r else return ()
    | _ => if ← isZero r then return () else printValue r

def runFile (name : String) : Eval Unit := do
  let files := (← get).files
  if !files.isThere name then printLine ("Error: File '" ++ name ++ "' not found")
  else
    let body : Eval Unit := do
      let text ← lift (files.read name)
      showFileEnding (← Session.run name text)
    tryCatch body fun
      | .fault f => printLine ("Error reading file: " ++ f.message)
      | s => throw s

/-- The shell with its arguments; only the first one counts. -/
def start (args : List String) : Eval Unit := do
  match args with
  | [] => interactive
  | name :: _ =>
    if !endsWith moduleSuffix name.toList then
      printLine ("Warning: '" ++ name ++ "' doesn't have " ++ moduleSuffix ++ " extension")
    runFile name

def listedError : Diagnostic.Kind → String
  | .invalidSyntax => "<errors.invalid_syntax.InvalidSyntaxError object at 0x0>"
  | _ => "<errors.illegal_character.IllegalCharError object at 0x0>"

def listedLexeme : Lexeme → Except Fault String
  | .token t => t.printed
  | .refused d => return listedError d.kind

def listTokens (args : List String) : Eval Unit := do
  match args with
  | [] => printLine "Please provide a file to lex."
  | name :: _ =>
    let text ← lift ((← get).files.read name)
    let result := Token.scan ⟨"test", text⟩
    match result with
    | .error (.fault s) => fault s.fault
    | _ => pure ()
    printLine ("Contents of " ++ name)
    printLine text
    printLine (String.ofList (List.replicate 80 '-'))
    printLine "Lexing Result:"
    match result with
    | .error (.diagnostic d) => printLine ("Error: " ++ listedError d.kind)
    | .error (.fault s) => fault s.fault
    | .ok lexemes =>
      printLine "Tokens:"
      lexemes.forM fun l => do printLine (← lift (listedLexeme l))

end Utterance.Shell

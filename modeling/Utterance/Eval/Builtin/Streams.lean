import Utterance.Eval.Builtin.Call
import Utterance.Eval.Builtin.Help
import Utterance.Eval.Program

/-!
# Built-in functions that read, print, run files and look at errors
-/

namespace Utterance.Call

open Eval

def display (r : Ref) : Eval Ref := do
  printLine (← shown r)
  return Store.null

def input : Eval Ref := do newString (← readLine)

/-- Reads lines until one of them is an integer; `left` bounds their number. -/
def integerLine : Nat → Eval Int
  | 0 => throw .exhausted
  | left + 1 => do
    let line ← readLine
    match Scalar.readInteger line with
    | .ok n => return n
    | .error _ =>
      printLine ("'" ++ line ++ "' must be an integer. Try again!")
      integerLine left

/-- Reads an integer. Every line takes something away from the input, or there is nothing left to read. -/
def inputInt : Eval Ref := do
  newNumber (← integerLine ((← get).input.length + 1))

def help : Eval Ref := do
  printLine helpText
  return Store.null

def exit : Eval Ref := do
  printLine "Goodbye!"
  throw .exit

def scriptText (files : Files) (name : Scalar) : Except Fault String :=
  match name with
  | .text path => files.read path
  | s => .error (.badFileName s.typeName)

def run (ev : Evaluator) (c : Call) (r : Ref) : Eval Ref := do
  let name ← c.string r "Argument must be string"
  let shownName ← lift name.printed
  match scriptText (← get).files name with
  | .error f => c.refuse ("Failed to load script \"" ++ shownName ++ "\"\n" ++ f.message)
  | .ok text =>
    record (.ran ⟨shownName, text⟩)
    match ← runText ev ⟨shownName, text⟩ with
    | .error d =>
      record (.failed shownName)
      c.refuse ("Failed to finish executing script \"" ++ shownName ++ "\"\n" ++ (← lift d.render))
    | .ok _ => return Store.null

def errorMessage (c : Call) (r : Ref) : Eval Ref := do
  match ← payload r with
  | .error details _ => newString details
  | _ => c.refuse "Argument must be an error"

def errorType (c : Call) (r : Ref) : Eval Ref := do
  match ← payload r with
  | .error _ title => newString title
  | _ => c.refuse "Argument must be an error"

end Utterance.Call

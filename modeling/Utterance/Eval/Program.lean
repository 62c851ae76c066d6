import Utterance.Eval.Machine
import Utterance.Grammar.Rules
import Utterance.Token.Scanner

/-!
# Programs

A program is a text with a name. It is scanned and parsed (`prepare`) and then run in the global scope (`runText`).
A program that gives, cuts or skips at its top ends there, without a value.
-/

namespace Utterance

abbrev Evaluator := Node → Frame → Eval Ref

/-- How a program ends: with an error, or with its value if it has one. -/
abbrev Ending := Except Diagnostic (Option Ref)

namespace Eval

/-- The tree of a program, or what is wrong with its text. -/
def prepare (source : Source) : Eval (Except Diagnostic Node) :=
  match Token.scan source with
  | .error (.diagnostic d) => return .error d
  | .error (.fault s) => fault s.fault
  | .ok lexemes =>
    match Grammar.parse lexemes with
    | .ok tree => return .ok tree
    | .error (.diagnostic d) => return .error d
    | .error (.fault f) => fault f
    | .error .exhausted => throw .exhausted

def runTree (ev : Evaluator) (tree : Node) (frame : Frame) : Eval Ending :=
  tryCatch (do return .ok (some (← ev tree frame))) fun
    | .error d => return .error d
    | .give _ | .cut | .skip => return .ok none
    | s => throw s

def programFrame (name : String) : Frame := ⟨[⟨name, none⟩], [Store.globalScope]⟩

def runText (ev : Evaluator) (source : Source) : Eval Ending := do
  match ← prepare source with
  | .error d => return .error d
  | .ok tree => runTree ev tree (programFrame source.name)

end Eval

end Utterance

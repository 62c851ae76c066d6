import Utterance.Eval.Evaluate
import Utterance.Library.Basic

/-!
# Sessions

A session runs programs one after the other in one world.
-/

namespace Utterance.Session

/-- The world in which a session starts: the files that it sees, and a text to read. -/
def start (files : Files) (input : String) : World := .initial files input

def run (name text : String) : Eval Ending := Eval.runText Eval.evaluate ⟨name, text⟩

/-- Runs a program in a scope of its own inside the global one; what it prints is dropped. -/
def runApart (name text : String) : Eval Ending := do
  let before := (← get).out
  let ending ← tryCatch (do
    match ← Eval.prepare ⟨name, text⟩ with
    | .error d => return .error d
    | .ok tree =>
      let scope ← Eval.newScope
      Eval.runTree Eval.evaluate tree ⟨[⟨name, none⟩], [scope, Store.globalScope]⟩) fun s => do
    modify fun w => { w with out := before }
    throw s
  modify fun w => { w with out := before }
  return ending

/-- The global names that are not bound to what they were bound to at the start, with their values. -/
def globals (w : World) : List (String × Ref) :=
  (w.store.scope Store.globalScope).bindings.filterMap fun (name, b) =>
    match b with
    | some (.value r) => if Store.givenNames[r]? = some name then none else some (name, r)
    | _ => none

end Utterance.Session

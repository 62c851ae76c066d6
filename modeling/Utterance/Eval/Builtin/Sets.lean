import Utterance.Eval.Builtin.Call

/-!
# Built-in functions of sets
-/

namespace Utterance.Call

open Eval

def bothSets (c : Call) (a b : Ref) : Eval ((Cell × Members) × (Cell × Members)) := do
  let left ← cell a
  let right ← cell b
  match left.payload, right.payload with
  | .set ms, .set ns => return ((left, ms), (right, ns))
  | _, _ => c.refuse "Both arguments must be sets"

def combine (f : Members → Members → Members) (c : Call) (a b : Ref) : Eval Ref := do
  let ((left, ms), (right, ns)) ← c.bothSets a b
  setResult left right (f ms ns)

def compareSets (f : Members → Members → Bool) (c : Call) (a b : Ref) : Eval Ref := do
  let ((_, ms), (_, ns)) ← c.bothSets a b
  newTruth (f ms ns)

def add (c : Call) (r element : Ref) : Eval Ref := do
  let cell ← cell r
  match cell.payload with
  | .set ms =>
    let m ← ofPrinting ((← store).member element)
    alloc { cell with payload := .set (ms.insert m) }
  | _ => c.refuse "First argument must be a set"

/-- Whether one of some values equals a value; each has to be comparable with it. -/
def anyEquals (element : Payload) : List Ref → Eval Bool
  | [] => return false
  | r :: rest => do
    match (← payload r).equals? element with
    | some true => return true
    | some false => anyEquals element rest
    | none => noProperty "NoneType" "value"

def contains (c : Call) (r element : Ref) : Eval Ref := do
  match ← payload r with
  | .set ms =>
    let m ← ofPrinting ((← store).member element)
    newTruth (ms.contains m)
  | .list es => newTruth (← anyEquals (← payload element) es.toList)
  | _ => c.refuse "First argument must be a set or list"

def setFromList (c : Call) (r : Ref) : Eval Ref := do
  let es ← c.list r "Argument must be a list"
  fresh (.set (← ofPrinting ((← store).membersOf es.toList)))

end Utterance.Call

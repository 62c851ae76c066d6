import Utterance.Eval.Builtin.Call

/-!
# Built-in functions of lists, tuples and dictionaries

`append`, `pop`, `extend` and `remove` change their first argument for everyone who holds it.
-/

namespace Utterance.Call

open Eval

section

variable (c : Call)

/-- The number of elements of a collection, or of characters of a text. -/
def len (r : Ref) : Eval Ref := do
  match ← payload r with
  | .list es => newNumber es.size
  | .tuple es => newNumber es.length
  | .set ms => newNumber ms.length
  | .string (.text s) => newNumber s.length
  | .string s => fault (.noLength s.typeName)
  | _ => c.refuse "Argument must be list, tuple, set, or string"

def setElements (r : Ref) (f : Array Ref → Array Ref) : Eval Unit :=
  modifyCell r fun cell =>
    match cell.payload with
    | .list es => { cell with payload := .list (f es) }
    | _ => cell

def append (r value : Ref) : Eval Ref := do
  let _ ← c.list r "First argument must be list"
  setElements r (·.push value)
  return Store.null

/-- Takes an element out of a list and gives it back. -/
def pop (r index : Ref) : Eval Ref := do
  let es ← c.list r "First argument must be list"
  let i ← c.number index "Second argument must be number"
  match scalarIndex? es.size i with
  | some k =>
    setElements r (·.eraseIdxIfInBounds k)
    return es.getD k 0
  | none => c.refuse "Element at this index could not be removed from list because index is out of bounds"

def extend (a b : Ref) : Eval Ref := do
  let _ ← c.list a "First argument must be list"
  let more ← c.list b "Second argument must be list"
  setElements a (· ++ more)
  return Store.null

/-- The elements that a value has as a sequence; all but sequences and texts are the only element of their own. -/
def sequence (r : Ref) : Eval (List Ref) := do
  match ← payload r with
  | .list es => return es.toList
  | .tuple es => return es
  | .string s => newCharacters s
  | _ => return [r]

def toTuple (r : Ref) : Eval Ref := do
  match ← payload r with
  | .tuple _ => return r
  | _ => fresh (.tuple (← sequence r))

def toList (r : Ref) : Eval Ref := do
  match ← payload r with
  | .list _ => return r
  | _ => newList (← sequence r)

/-- The value that a key of a dictionary is as a value of its own. -/
def keyValue : Scalar → Payload
  | .text s => .string (.text s)
  | s => .number s

def keys (r : Ref) : Eval Ref := do
  let n ← c.dict r "Argument must be dictionary"
  newList (← (← table n).mapM fun (key, _) => fresh (keyValue key))

def values (r : Ref) : Eval Ref := do
  let n ← c.dict r "Argument must be dictionary"
  newList ((← table n).map (·.2))

def key (r : Ref) : Eval Scalar := do
  match ← payload r with
  | .number s | .string s => return s
  | _ => c.refuse "Key must be string or number"

def hasKey (r k : Ref) : Eval Ref := do
  let n ← c.dict r "First argument must be dictionary"
  let key ← c.key k
  newTruth ((← table n).get? key).isSome

/-- Takes a key out of a dictionary and gives its value, or makes a set without a member. -/
def remove (r k : Ref) : Eval Ref := do
  let cell ← cell r
  match cell.payload with
  | .dict n =>
    let key ← c.key k
    match (← table n).get? key with
    | some value =>
      modifyTable n (·.erase key)
      return value
    | none => c.refuse (← lift (missingKey key))
  | .set ms =>
    let m ← ofPrinting ((← store).member k)
    if ms.contains m then alloc { cell with payload := .set (ms.erase m) }
    else c.refuse "Element not found in set"
  | _ => c.refuse "First argument must be dictionary or set"

end

end Utterance.Call

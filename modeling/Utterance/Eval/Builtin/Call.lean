import Utterance.Eval.Operators

/-!
# Calls of built-in functions

What a built-in function knows of its call, and the checks that many of them make.
-/

namespace Utterance

/-- A call: where it stands in the source, and the frame that was made for it. -/
structure Call where
  start : Option Position
  stop : Option Position
  frame : Frame

namespace Call

variable {α : Type}

def refuse (c : Call) (details : String) : Eval α := Eval.error c.start c.stop details c.frame.levels

def list (c : Call) (r : Ref) (details : String) : Eval (Array Ref) := do
  match ← Eval.payload r with
  | .list es => return es
  | _ => c.refuse details

def string (c : Call) (r : Ref) (details : String) : Eval Scalar := do
  match ← Eval.payload r with
  | .string s => return s
  | _ => c.refuse details

def number (c : Call) (r : Ref) (details : String) : Eval Scalar := do
  match ← Eval.payload r with
  | .number s => return s
  | _ => c.refuse details

def dict (c : Call) (r : Ref) (details : String) : Eval Nat := do
  match ← Eval.payload r with
  | .dict n => return n
  | _ => c.refuse details

end Call

namespace Eval

/-- The text of a text value; one that holds nothing lacks the property that it is asked for. -/
def text (s : Scalar) (property : String) : Eval String :=
  match s with
  | .text t => return t
  | s => noProperty s.typeName property

def newNumber (n : Int) : Eval Ref := fresh (.number (.int n))

def newString (s : String) : Eval Ref := fresh (.string (.text s))

def newTruth (b : Bool) : Eval Ref := fresh (truthNumber b)

def newList (rs : List Ref) : Eval Ref := fresh (.list rs.toArray)

def newCharacters (s : Scalar) : Eval (List Ref) :=
  match s with
  | .text t => t.toList.mapM fun c => newString (String.singleton c)
  | s => fault (.notIterable s.typeName)

end Eval

end Utterance

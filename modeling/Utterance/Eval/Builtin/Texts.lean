import Utterance.Eval.Builtin.Call

/-!
# Built-in functions of texts
-/

namespace Utterance.Call

open Eval

section

variable (c : Call)

/-- The delimiter that an argument means; a number means a space. -/
def delimiter (r : Ref) : Eval Scalar := do
  match ← payload r with
  | .number _ => return .text " "
  | .string d => return d
  | _ => c.refuse "Delimiter must be string or null"

/-- The pieces of a text at a delimiter; a text that holds nothing means blanks. -/
def piecesOf (chars : List Char) : Scalar → Eval (List (List Char))
  | .text d => if d.isEmpty then fault .emptySeparator else return Text.splitOn d.toList chars
  | _ => return Text.splitBlankFrom Text.isBlank [] chars

def split (r separator : Ref) : Eval Ref := do
  let s ← c.string r "First argument must be string"
  let d ← c.delimiter separator
  let t ← text s "split"
  let pieces ← piecesOf t.toList d
  newList (← pieces.mapM fun p => newString (String.ofList p))

/-- What an element becomes as a part of a joined text. -/
def joinPart (r : Ref) : Eval Scalar := do
  match ← payload r with
  | .string s => return s
  | .number s => return .text (← lift s.printed)
  | _ => c.refuse "All list elements must be strings or numbers"

def partTexts : Nat → List Scalar → Except Fault (List (List Char))
  | _, [] => return []
  | position, .text s :: rest => return s.toList :: (← partTexts (position + 1) rest)
  | position, s :: _ => .error (.badItem position s.typeName)

def join (r separator : Ref) : Eval Ref := do
  let es ← c.list r "First argument must be list"
  let sep ← c.string separator "Second argument must be string"
  let parts ← es.toList.mapM c.joinPart
  let sep ← text sep "join"
  newString (String.ofList (Text.joinWith sep.toList (← lift (partTexts 0 parts))))

def upper (r : Ref) : Eval Ref := do
  let s ← c.string r "Argument must be string"
  newString (Text.upper (← text s "upper"))

def lower (r : Ref) : Eval Ref := do
  let s ← c.string r "Argument must be string"
  newString (Text.lower (← text s "lower"))

def replaceArgument (position : Nat) (s : Scalar) : Eval (List Char) :=
  match s with
  | .text t => return t.toList
  | _ => fault (.badReplaceArgument position)

def replace (r old new : Ref) : Eval Ref := do
  let s ← c.string r "First argument must be string"
  let o ← c.string old "Second argument must be string"
  let n ← c.string new "Third argument must be string"
  let s ← text s "replace"
  let o ← replaceArgument 1 o
  let n ← replaceArgument 2 n
  newString (String.ofList (Text.replaceAll o n s.toList))

def cuttable (s : Scalar) : Eval (List Char) :=
  match s with
  | .text t => return t.toList
  | s => fault (.notSubscriptable s.typeName)

/-- The part of a text between two indices; zero as the second one means the end. -/
def substring (r start stop : Ref) : Eval Ref := do
  let s ← c.string r "First argument must be string"
  let nullRefused := "Second argument must be a number (null not allowed for start index)"
  let first ← c.number start nullRefused
  if start = Store.null then c.refuse nullRefused
  else
    let i ← lift first.toInteger
    match ← payload stop with
    | .number last =>
      if last.isZero then
        let chars ← cuttable s
        newString (String.ofList (Text.slice chars i chars.length))
      else
        let j ← lift last.toInteger
        newString (String.ofList (Text.slice (← cuttable s) i j))
    | _ => c.refuse "Third argument must be number or null"

end

end Utterance.Call

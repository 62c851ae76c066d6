import Utterance.Eval.Builtin.Call
import Utterance.Pattern.Replacement

/-!
# Built-in functions of patterns

A pattern is given as such or as a text, which is compiled for the call.
-/

namespace Utterance.Call

open Eval

section

variable (c : Call)

/-- The result of something with patterns; an invalid pattern ends the call with an error. -/
def ofPattern {α : Type} (x : Except Pattern.Refusal α) : Eval α :=
  match x with
  | .ok a => return a
  | .error (.invalid report) => c.refuse ("Invalid regex pattern: " ++ report)
  | .error (.fault f) => fault f

/-- What a pattern argument is: a pattern, or a text that is to be compiled. -/
def patternSource (r : Ref) : Eval (Except Scalar Pattern.Compiled) := do
  match ← payload r with
  | .regex _ compiled => return .ok compiled
  | .string s => return .error s
  | _ => c.refuse "First argument must be regex or string pattern"

def compiled (source : Except Scalar Pattern.Compiled) : Eval Pattern.Compiled :=
  match source with
  | .ok p => return p
  | .error (.text s) => c.ofPattern (Pattern.compile s)
  | .error _ => fault .badPattern

def subject (s : Scalar) : Eval String :=
  match s with
  | .text t => return t
  | s => fault (.badSubject s.typeName)

/-- The pattern and the text of a call with these two arguments. -/
def patternAndText (pattern r : Ref) : Eval (Pattern.Compiled × String) := do
  let source ← c.patternSource pattern
  let s ← c.string r "Second argument must be string"
  let p ← c.compiled source
  return (p, ← subject s)

/-- A text value, or null in the place of an empty or a missing text. -/
def textOrNull (s : Option String) : Eval Ref :=
  match s with
  | some s => if s.isEmpty then return Store.null else newString s
  | none => return Store.null

def regexMatch (pattern r : Ref) : Eval Ref := do
  let (p, s) ← c.patternAndText pattern r
  let chars := s.toList.toArray
  let m := p.matchAt? chars 0 false
  fresh (.found (m.map fun m => String.ofList (Pattern.between chars m.start m.stop)))

def regexSearch (pattern r : Ref) : Eval Ref := do
  let (p, s) ← c.patternAndText pattern r
  let chars := s.toList.toArray
  match p.search? chars with
  | none => return Store.null
  | some m =>
    let matched ← newString (String.ofList (Pattern.between chars m.start m.stop))
    let start ← newNumber m.start
    let stop ← newNumber m.stop
    let groups ← newList (← (m.texts chars).mapM textOrNull)
    let n ← newTable
      [(.text "matched_text", matched), (.text "start_pos", start), (.text "end_pos", stop), (.text "groups", groups)]
    fresh (.dict n)

def template (s : Scalar) : Eval String :=
  match s with
  | .text t => return t
  | s => fault (.badTemplate s.typeName)

def regexReplace (pattern replacement r : Ref) : Eval Ref := do
  let source ← c.patternSource pattern
  let new ← c.string replacement "Second argument must be string"
  let s ← c.string r "Third argument must be string"
  let p ← c.compiled source
  let new ← template new
  -- A faulty replacement is reported even if the text is none.
  let _ ← c.ofPattern (Pattern.readReplacement p new)
  newString (← c.ofPattern (p.replace new (← subject s)))

/-- All matches: texts, or lists of texts if the pattern has several groups. -/
def regexFindAll (pattern r : Ref) : Eval Ref := do
  let (p, s) ← c.patternAndText pattern r
  newList (← (p.findAll s).mapM fun
    | [s] => newString s
    | groups => do newList (← groups.mapM fun g => textOrNull (some g)))

/-- The pieces between the matches, with the texts of groups in between; a group may hold nothing. -/
def regexSplit (pattern r : Ref) : Eval Ref := do
  let (p, s) ← c.patternAndText pattern r
  newList (← (p.split s).mapM fun
    | some piece => newString piece
    | none => fresh (.string .absent))

end

end Utterance.Call

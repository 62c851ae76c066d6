import Utterance.Scalar.Basic

/-!
# Integers from texts and scalars

`readInteger` accepts blanks around the number, a sign, decimal digits of any script, and single underscores
between digits. `Scalar.toInteger` also cuts doubles toward zero.
-/

namespace Utterance.Scalar

/-- Reads digits, most significant first; after an underscore a digit must follow. -/
def readDigits : Nat → Bool → List Char → Option Nat
  | value, afterDigit, [] => if afterDigit then some value else none
  | value, afterDigit, c :: rest =>
    match Text.decimalValue? c with
    | some d => readDigits (value * 10 + d) true rest
    | none => if c = '_' ∧ afterDigit then readDigits value false rest else none

/-- The number of digits that a text begins with, underscores not counted. -/
def leadingDigits (s : List Char) : Nat :=
  ((s.takeWhile fun c => Text.isDecimal c || c == '_').filter Text.isDecimal).length

def splitSign : List Char → Bool × List Char
  | '-' :: rest => (true, rest)
  | '+' :: rest => (false, rest)
  | s => (false, s)

def readInteger (s : String) : Except Fault Int :=
  let (negative, digits) := splitSign (Text.trim Text.isBlank s.toList)
  let count := leadingDigits digits
  if Fault.digitLimit < count then .error (.tooManyDigitsIn count)
  else
    match readDigits 0 false digits with
    | some n => .ok (if negative then -(n : Int) else n)
    | none => .error (.badIntegerText (String.ofList ((Text.quoted s).toList.take 200)))

def toInteger : Scalar → Except Fault Int
  | int n => .ok n
  | float x =>
    match Floating.Parts.ofFloat x with
    | .nan => .error .nanToInteger
    | .infinite _ => .error .infinityToInteger
    | .finite negative m e =>
      let n : Int := Floating.Parts.truncate m e
      .ok (if negative then -n else n)
  | text s => readInteger s
  | absent => .error (.badIntegerSource "NoneType")

end Utterance.Scalar

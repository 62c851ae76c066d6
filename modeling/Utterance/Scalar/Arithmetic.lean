import Utterance.Scalar.Integer

/-!
# Arithmetic of scalars

Integers are exact; as soon as a double takes part, both operands are doubles. `/` always gives a double, `%`
has the sign of the divisor. A text is appended to by `+` and repeated by `*`.
-/

namespace Utterance.Scalar

def integerToFloat (n : Int) : Except Fault Float :=
  match Floating.ofInt? n with
  | some x => .ok x
  | none => .error .integerTooLarge

/-- Applies an operation on doubles to two numbers of which one is a double; other operands are refused. -/
def onFloats (f : Float → Float → Float) (refuse : Fault) : Scalar → Scalar → Except Fault Scalar
  | float a, float b => .ok (float (f a b))
  | int a, float b => return float (f (← integerToFloat a) b)
  | float a, int b => return float (f a (← integerToFloat b))
  | _, _ => .error refuse

/-- The number of lengths and counts that a machine integer can have. -/
def countLimit : Int := Nat.pow 2 63

/-- A text repeated `count` times; not at all if that is negative. -/
def repeatText (s : String) (count : Int) : Except Fault Scalar :=
  if count < -countLimit ∨ countLimit ≤ count then .error .repeatTooLarge
  else if countLimit ≤ s.length * count then .error .repeatTooLong
  else .ok (text (String.ofList (List.replicate count.toNat s.toList).flatten))

def addAs (symbol : String) : Scalar → Scalar → Except Fault Scalar
  | int a, int b => .ok (int (a + b))
  | text a, text b => .ok (text (a ++ b))
  | text _, b => .error (.notAppendable b.typeName)
  | a, b => onFloats (· + ·) (.unsupported symbol a.typeName b.typeName) a b

def add : Scalar → Scalar → Except Fault Scalar := addAs "+"

def sub : Scalar → Scalar → Except Fault Scalar
  | int a, int b => .ok (int (a - b))
  | a, b => onFloats (· - ·) (.unsupported "-" a.typeName b.typeName) a b

def mul : Scalar → Scalar → Except Fault Scalar
  | int a, int b => .ok (int (a * b))
  | text a, int b => repeatText a b
  | int a, text b => repeatText b a
  | text _, b => .error (.badRepeat b.typeName)
  | a, text _ => .error (.badRepeat a.typeName)
  | a, b => onFloats (· * ·) (.unsupported "*" a.typeName b.typeName) a b

def div : Scalar → Scalar → Except Fault Scalar
  | int a, int b =>
    match Floating.ofQuotient? a b with
    | some x => .ok (float x)
    | none => .error .quotientTooLarge
  | a, b => onFloats (· / ·) (.unsupported "/" a.typeName b.typeName) a b

def mod : Scalar → Scalar → Except Fault Scalar
  | int a, int b => .ok (int (a.fmod b))
  | text _, _ => .error .leftoverArgument
  | a, b => onFloats Floating.floorMod (.unsupported "%" a.typeName b.typeName) a b

end Utterance.Scalar

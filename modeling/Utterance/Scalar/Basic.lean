import Utterance.Fault
import Utterance.Floating.Nearest
import Utterance.Floating.Shortest
import Utterance.Text.Quoted
import Utterance.Text.Search

/-!
# Scalars

A scalar is what a token, a number or a text carries: an integer of any size, a double, a text, or nothing.
Numbers carry integers and doubles; only the counter of a loop over texts makes a number that carries a text.
`Scalar.printed` is the printed form, which integers beyond `Fault.digitLimit` digits do not have.
-/

namespace Utterance

inductive Scalar where
  | int (n : Int)
  | float (x : Float)
  | text (s : String)
  | absent
deriving Inhabited

namespace Scalar

def typeName : Scalar → String
  | int _ => "int"
  | float _ => "float"
  | text _ => "str"
  | absent => "NoneType"

def integerText (n : Int) : Except Fault String :=
  let digits := Nat.toDigits 10 n.natAbs
  if Fault.digitLimit < digits.length then .error .tooManyDigits
  else .ok (String.ofList (if n < 0 then '-' :: digits else digits))

def printed : Scalar → Except Fault String
  | int n => integerText n
  | float x => .ok (Floating.text x)
  | text s => .ok s
  | absent => .ok "None"

def quoted : Scalar → Except Fault String
  | text s => .ok (Text.quoted s)
  | s => s.printed

/-- A scalar that counts as false: zero, the empty text, nothing. -/
def isFalsy : Scalar → Bool
  | int n => n == 0
  | float x => x == 0
  | text s => s.isEmpty
  | absent => true

/-- How an integer compares with a double; nothing if the double is no number. -/
def compareIntFloat (n : Int) (x : Float) : Option Ordering :=
  match Floating.Parts.ofFloat x with
  | .nan => none
  | .infinite negative => some (if negative then .gt else .lt)
  | .finite negative m e =>
    let (num, den) := Floating.Parts.ratio m e
    let value : Int := if negative then -num else num
    some (compare (n * den) value)

/-- Equality; an integer and a double are equal if they are the same number. -/
def equal : Scalar → Scalar → Bool
  | int a, int b => a == b
  | float a, float b => a == b
  | int a, float b => compareIntFloat a b == some .eq
  | float a, int b => compareIntFloat b a == some .eq
  | text a, text b => a == b
  | absent, absent => true
  | _, _ => false

instance : BEq Scalar := ⟨equal⟩

def isNaN : Scalar → Bool
  | float x => x != x
  | _ => false

/-- Equality as keys and members have it: what is no number is the same as itself. -/
def same (a b : Scalar) : Bool := a.equal b || (a.isNaN && b.isNaN)

def isZero (s : Scalar) : Bool := s.equal (int 0)

/-- The order relations between scalars. -/
inductive Order where
  | lt | gt | le | ge
deriving DecidableEq, Repr

namespace Order

def symbol : Order → String
  | lt => "<"
  | gt => ">"
  | le => "<="
  | ge => ">="

/-- Whether an outcome of a comparison satisfies the relation. -/
def accepts : Order → Ordering → Bool
  | lt, o => o == .lt
  | gt, o => o == .gt
  | le, o => o != .gt
  | ge, o => o != .lt

/-- The relation on doubles; no relation holds of NaN. -/
def onFloats : Order → Float → Float → Bool
  | lt, a, b => a < b
  | gt, a, b => b < a
  | le, a, b => a ≤ b
  | ge, a, b => b ≤ a

end Order

/-- Texts are ordered by code points, character after character. -/
def compareText (a b : String) : Ordering :=
  if a == b then .eq else if a < b then .lt else .gt

/-- Compares two scalars of types that have a common order. -/
def ordered (rel : Order) : Scalar → Scalar → Except Fault Bool
  | int a, int b => .ok (rel.accepts (compare a b))
  | float a, float b => .ok (rel.onFloats a b)
  | int a, float b => .ok (((compareIntFloat a b).map rel.accepts).getD false)
  | float a, int b => .ok (((compareIntFloat b a).map (rel.accepts ·.swap)).getD false)
  | text a, text b => .ok (rel.accepts (compareText a b))
  | a, b => .error (.unordered rel.symbol a.typeName b.typeName)

end Scalar

end Utterance

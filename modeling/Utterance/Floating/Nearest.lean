import Utterance.Floating.Parts

/-!
# The double nearest to a fraction

`nearestBits num den` is the bit pattern of the double nearest to `num / den`; a tie goes to the even mantissa,
and what is too large goes to infinity. Decimal texts, integers and quotients of integers all become doubles
through it.
-/

namespace Utterance.Floating

/-- The quotient rounded to the nearest natural number, a tie to the even one. -/
def roundDiv (num den : Nat) : Nat :=
  let q := num / den
  let r := num % den
  if den < 2 * r ∨ (den = 2 * r ∧ q % 2 = 1) then q + 1 else q

def infinityBits : Nat := 2047 * Nat.pow 2 52

/-- The quotient of `num / den` by `2 ^ k`, as a fraction. -/
def scaled (num den : Nat) (k : Int) : Nat × Nat :=
  if 0 ≤ k then (num, den * Nat.pow 2 k.toNat) else (num * Nat.pow 2 (-k).toNat, den)

/-- The exponent `k` for which `num / den` is between `2 ^ 52` and `2 ^ 53` units of `2 ^ k`, but never below
the least exponent of a double. -/
def unitExponent (num den : Nat) : Int :=
  let guess : Int := (num.log2 : Int) - den.log2 - 53
  let (n, d) := scaled num den guess
  max (if d * Nat.pow 2 53 ≤ n then guess + 1 else guess) Parts.leastExponent

/-- The bit pattern of the double nearest to `num / den`. -/
def nearestBits (num den : Nat) : Nat :=
  if num = 0 then 0
  else
    let k := unitExponent num den
    let (n, d) := scaled num den k
    let q := roundDiv n d
    let bits := if q < Nat.pow 2 52 then q else (k + 1075).toNat * Nat.pow 2 52 + (q - Nat.pow 2 52)
    min bits infinityBits

def nearest (negative : Bool) (num den : Nat) : Float :=
  let bits := nearestBits num den
  Float.ofBits (UInt64.ofNat (if negative then bits + Nat.pow 2 63 else bits))

/-- The double nearest to an integer, unless that is infinite. -/
def ofInt? (n : Int) : Option Float :=
  if nearestBits n.natAbs 1 = infinityBits then none else some (nearest (n < 0) n.natAbs 1)

/-- The double nearest to the quotient of two integers, unless that is infinite. -/
def ofQuotient? (a b : Int) : Option Float :=
  if nearestBits a.natAbs b.natAbs = infinityBits then none
  else some (nearest ((a < 0) != (b < 0)) a.natAbs b.natAbs)

/-- The double nearest to the decimal number `digits · 10 ^ (-places)`. -/
def ofDecimal (digits places : Nat) : Float := nearest false digits (Nat.pow 10 places)

def Parts.truncate (m : Nat) (e : Int) : Nat :=
  let (n, d) := Parts.ratio m e
  n / d

/-- The remainder of two doubles, with the sign of the divisor, which is not zero. -/
def floorMod (x y : Float) : Float :=
  match Parts.ofFloat x, Parts.ofFloat y with
  | .finite negX mx ex, .finite negY my ey =>
    let e := min ex ey
    let a := mx * Nat.pow 2 (ex - e).toNat
    let b := my * Nat.pow 2 (ey - e).toNat
    let r := a % b
    let (num, den) := Parts.ratio r e
    if r = 0 then nearest negY 0 1
    else if negX == negY then nearest negX num den
    else nearest negX num den + y
  | .finite negX mx _, .infinite negY =>
    if mx = 0 then nearest negY 0 1
    else if negX == negY then x else y
  | _, _ => x - x + (y - y)

end Utterance.Floating

import Utterance.Floating.Parts

/-!
# The shortest decimal text of a double

A double is written with the fewest decimal digits that still read back as the same double; of several such
decimals the one nearest to the double is taken. `shortest` finds the digits with exact natural numbers and
`Style.write` lays them out.
-/

namespace Utterance.Floating

/-- A decimal number `digits · 10 ^ exponent`. -/
structure Decimal where
  digits : Nat
  exponent : Int
deriving DecidableEq, Repr

namespace Decimal

/-- Drops trailing zeros, at most as many as the fuel says. -/
def trim : Nat → Decimal → Decimal
  | 0, d => d
  | n + 1, d => if d.digits % 10 = 0 then trim n ⟨d.digits / 10, d.exponent + 1⟩ else d

end Decimal

/-- The factors `(a, b)` with `x / 10 ^ p = x * a / b`. -/
def tenScale (p : Int) : Nat × Nat :=
  if 0 ≤ p then (1, Nat.pow 10 p.toNat) else (Nat.pow 10 (-p).toNat, 1)

def reachesTen (num den : Nat) (k : Int) : Bool :=
  let (a, b) := tenScale k
  decide (den * b ≤ num * a)

def tenLog (num den : Nat) : Int :=
  let guess := ((num.log2 : Int) - den.log2) * 30103 / 100000
  if reachesTen num den (guess + 1) then guess + 1
  else if reachesTen num den guess then guess
  else guess - 1

/-- The interval of the reals that round to one double: from `low / den` to `high / den` around `value / den`,
with its ends if `closed`. -/
structure Rounding where
  low : Nat
  value : Nat
  high : Nat
  den : Nat
  closed : Bool

namespace Rounding

/-- The rounding interval of `m · 2 ^ e`. Below a power of two the neighbours are twice as close. -/
def ofParts (m : Nat) (e : Int) : Rounding :=
  let (factor, den) := Parts.ratio 1 (e - 2)
  let gap := if m = Nat.pow 2 52 ∧ Parts.leastExponent < e then 1 else 2
  ⟨(4 * m - gap) * factor, 4 * m * factor, (4 * m + 2) * factor, den, m % 2 == 0⟩

/-- Whether the decimal `digits · 10 ^ p` lies in the interval. -/
def holds (r : Rounding) (p : Int) (digits : Nat) : Bool :=
  let (a, b) := tenScale p
  let x := digits * (r.den * b)
  if r.closed then r.low * a ≤ x && x ≤ r.high * a else r.low * a < x && x < r.high * a

/-- The decimal of the interval on the grid of multiples of `10 ^ p` that is nearest to the value. -/
def onGrid (r : Rounding) (p : Int) : Option Decimal :=
  let (a, b) := tenScale p
  let unit := r.den * b
  let below := r.value * a / unit
  let rest := r.value * a % unit
  match r.holds p below, r.holds p (below + 1) with
  | true, false => some ⟨below, p⟩
  | false, true => some ⟨below + 1, p⟩
  | true, true =>
    if unit < 2 * rest ∨ (unit = 2 * rest ∧ below % 2 = 1) then some ⟨below + 1, p⟩ else some ⟨below, p⟩
  | false, false => none

def onFinerGrid (r : Rounding) : Nat → Int → Decimal
  | 0, p => ⟨r.value * (tenScale p).1 / (r.den * (tenScale p).2), p⟩
  | n + 1, p =>
    match r.onGrid p with
    | some d => d
    | none => r.onFinerGrid n (p - 1)

end Rounding

/-- The shortest decimal that reads back as `m · 2 ^ e`, for `m` not zero. -/
def shortest (m : Nat) (e : Int) : Decimal :=
  let r := Rounding.ofParts m e
  (r.onFinerGrid 17 (tenLog r.value r.den)).trim 20

/-- How decimals are laid out: exponents from `least` to `most` are written positionally, and the exponents of
the others have at least `width` digits. -/
structure Style where
  least : Int
  most : Int
  width : Nat

namespace Style

/-- The layout of numbers in programs and their output. -/
def plain : Style := ⟨-4, 15, 2⟩

def padded (width : Nat) (digits : List Char) : List Char :=
  List.replicate (width - digits.length) '0' ++ digits

def write (style : Style) (d : Decimal) : String :=
  let ds := Nat.toDigits 10 d.digits
  let top : Int := d.exponent + ds.length - 1
  if top < style.least ∨ style.most < top then
    let sign := if top < 0 then '-' else '+'
    let mantissa := if ds.length ≤ 1 then ds else ds.take 1 ++ '.' :: ds.drop 1
    String.ofList (mantissa ++ 'e' :: sign :: padded style.width (Nat.toDigits 10 top.natAbs))
  else if 0 ≤ d.exponent then
    String.ofList (ds ++ List.replicate d.exponent.toNat '0' ++ ['.', '0'])
  else if 0 ≤ top then
    String.ofList (ds.take (top.toNat + 1) ++ '.' :: ds.drop (top.toNat + 1))
  else
    String.ofList ('0' :: '.' :: List.replicate ((-top).toNat - 1) '0' ++ ds)

end Style

def text (x : Float) : String :=
  let signed (negative : Bool) (s : String) := if negative then "-" ++ s else s
  match Parts.ofFloat x with
  | .nan => "nan"
  | .infinite negative => signed negative "inf"
  | .finite negative m e =>
    signed negative (if m = 0 then "0.0" else Style.plain.write (shortest m e))

end Utterance.Floating

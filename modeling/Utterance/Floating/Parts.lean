/-!
# The parts of a double

A finite double is `± m · 2 ^ e` for a natural number `m` and an integer `e`. `Parts.ofFloat` reads `m` and `e`
off the bits, so that everything else about doubles can be said with exact integers.
-/

namespace Utterance.Floating

/-- A double taken apart. -/
inductive Parts where
  | nan
  | infinite (negative : Bool)
  /-- The number `m · 2 ^ e`, with a sign that zero has too. -/
  | finite (negative : Bool) (m : Nat) (e : Int)
deriving DecidableEq, Repr

namespace Parts

def leastExponent : Int := -1074

/-- Reads a bit pattern: one sign bit, eleven bits of exponent, fifty-two bits of fraction. -/
def ofBits (bits : Nat) : Parts :=
  let negative := bits / Nat.pow 2 63 % 2 == 1
  let exponent : Nat := bits / Nat.pow 2 52 % 2048
  let fraction : Nat := bits % Nat.pow 2 52
  if exponent = 2047 then
    if fraction = 0 then infinite negative else nan
  else if exponent = 0 then finite negative fraction leastExponent
  else finite negative (fraction + Nat.pow 2 52) ((exponent : Int) - 1075)

def ofFloat (x : Float) : Parts := ofBits x.toBits.toNat

/-- The number as a fraction `numerator / denominator`, without its sign. -/
def ratio (m : Nat) (e : Int) : Nat × Nat :=
  if 0 ≤ e then (m * Nat.pow 2 e.toNat, 1) else (m, Nat.pow 2 (-e).toNat)

end Parts

end Utterance.Floating

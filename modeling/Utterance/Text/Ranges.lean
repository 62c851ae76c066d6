/-!
# Sets of characters as sorted ranges

A table of ranges of code points, in increasing order, is searched by halving. Long tables are written as codes.
-/

namespace Utterance.Text

/-- The numbers that a code holds, one after the other, in its hexadecimal digits: those of a number are octal ones,
but for the last one, which is greater by eight. -/
def decode (code : Nat) : List Nat := numbers 0 (digits (code.log2 / 4 + 1) code [])
where
  digits : Nat → Nat → List Nat → List Nat
    | 0, _, after => after
    | count + 1, n, after => digits count (n / 16) (n % 16 :: after)
  numbers : Nat → List Nat → List Nat
    | n, d :: after => if d < 8 then numbers (8 * n + d) after else (8 * n + (d - 8)) :: numbers 0 after
    | _, [] => []

/-- Ranges of code points, both ends included, in increasing order. -/
abbrev Ranges := Array (Nat × Nat)

namespace Ranges

/-- Ranges that are given by how many code points are left out before each of them, and how many it has. -/
def ofCodes (codes : List Nat) : Ranges := (go 0 (codes.flatMap decode)).toArray
where
  go : Nat → List Nat → List (Nat × Nat)
    | n, left :: length :: rest => (n + left, n + left + length - 1) :: go (n + left + length) rest
    | _, _ => []

/-- Looks for the range that holds `n` among those with an index from `low` to `high`, the latter excluded;
halves the search at most as often as the fuel says. -/
def search (table : Ranges) (n : Nat) : Nat → Nat → Nat → Option (Nat × Nat)
  | 0, _, _ => none
  | fuel + 1, low, high =>
    if low < high then
      let middle := (low + high) / 2
      match table[middle]? with
      | none => none
      | some (first, last) =>
        if n < first then search table n fuel low middle
        else if last < n then search table n fuel (middle + 1) high
        else some (first, last)
    else none

def find? (table : Ranges) (c : Char) : Option (Nat × Nat) :=
  search table c.toNat (table.size.log2 + 2) 0 table.size

def contains (table : Ranges) (c : Char) : Bool := (find? table c).isSome

end Ranges

end Utterance.Text

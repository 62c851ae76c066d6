import Utterance.Text.Case
import Utterance.Pattern.Item

/-!
# What a character matches

A pattern tests one character at a time: against a character, or against a set of them. With case set aside, the
test compares small forms, and small letters with a common capital count as the same letter.
-/

namespace Utterance.Pattern

/-- How characters are read: whether only the first 128 have a class and a case, and whether case counts. -/
structure Alphabet where
  ascii : Bool
  ignoreCase : Bool
deriving DecidableEq, Repr

def sameCapital : List (List Nat) :=
  [[105,305],[115,383],[181,956],[837,953,8126],[912,8147],[944,8163],[946,976],[949,1013],[952,977],[954,1008],[960,
  982],[961,1009],[962,963],[966,981],[1074,7296],[1076,7297],[1086,7298],[1089,7299],[1090,7300,7301],[1098,7302],
  [1123,7303],[7304,42571],[7777,7835],[64261,64262]]

/-- The small letters that share a capital with a small letter, itself first. -/
def relatives (code : Nat) : List Nat :=
  match sameCapital.find? (·.contains code) with
  | some group => code :: group.filter (· != code)
  | none => [code]

def capitalsOf (code : Nat) : List Nat :=
  let shifted := Text.lowerRuns.toList.filterMap fun (first, last, step, shift) =>
    let source := ((code : Int) - shift).toNat
    if first ≤ source && source ≤ last && (source - first) % step == 0 then some source else none
  if code = 105 then 304 :: shifted else shifted

def runMeets (low high : Nat) (run : Nat × Nat × Nat × Int) : Bool :=
  let (first, last, step, _) := run
  let start := if low ≤ first then first else first + (low - first + step - 1) / step * step
  start ≤ min last high

namespace Alphabet

section

variable (a : Alphabet)

def lower (code : Nat) : Nat :=
  if a.ascii then if 65 ≤ code ∧ code ≤ 90 then code + 32 else code
  else if code = 304 then 105
  else Text.shiftCode Text.lowerRuns code

/-- Whether some character between two given ones has a small or a capital form other than itself. -/
def hasCased (low high : Nat) : Bool :=
  if a.ascii then (low ≤ 90 && 65 ≤ high) || (low ≤ 122 && 97 ≤ high)
  else
    (low ≤ 304 && 304 ≤ high) || Text.lowerRuns.any (runMeets low high) || Text.upperRuns.any (runMeets low high) ||
      Text.upperExpansions.any fun (code, _) => low ≤ code && code ≤ high

/-- The characters that count as the same as a small letter. -/
def related (code : Nat) : List Nat := if a.ascii then [code] else relatives code

def isOf (category : Category) (c : Char) : Bool :=
  match category with
  | .digit => if a.ascii then c.isDigit else Text.isDecimal c
  | .space =>
    if a.ascii then c == ' ' || (9 ≤ c.toNat && c.toNat ≤ 13) else Text.isBlank c
  | .word => c == '_' || if a.ascii then c.isAlphanum else Text.isAlphanumeric c

def isLiteral (code : Nat) (c : Char) : Bool :=
  if a.ignoreCase && a.hasCased code code then (a.related (a.lower code)).contains (a.lower c.toNat)
  else c.toNat == code

/-- Whether a character belongs to a member of a set where case counts. -/
def inMember (m : Member) (c : Char) : Bool :=
  match m with
  | .literal code => c.toNat == code
  | .range low high => low ≤ c.toNat && c.toNat ≤ high
  | .category k negated => a.isOf k c != negated

def beyondBasic : Nat := 65536

/-- Whether a member of a set has a character with a case; characters beyond the basic plane all count as such. -/
def memberCased (m : Member) : Bool :=
  match m with
  | .literal code => beyondBasic ≤ a.lower code || a.hasCased code code
  | .range low high => beyondBasic ≤ high || a.hasCased low high
  | .category _ _ => false

/-- Whether a small letter belongs to a member of a set where case does not count. A small letter belongs to a range
if one of its relatives is the small form of a member of the range. -/
def inMemberFolded (m : Member) (small : Nat) : Bool :=
  match m with
  | .literal code =>
    let low := a.lower code
    if beyondBasic ≤ low then small == code else (a.related low).contains small
  | .range low high =>
    let inRange (code : Nat) : Bool := low ≤ code && code ≤ high
    let inBasic (code : Nat) : Bool := inRange code && code < beyondBasic
    (a.related small).any (fun d => (inBasic d && a.lower d == d) ||
        if a.ascii then 97 ≤ d && d ≤ 122 && inBasic (d - 32) else (capitalsOf d).any inBasic) ||
      (beyondBasic ≤ high && (inRange small || inRange (Text.shiftCode Text.upperRuns small)))
  | .category k negated => a.isOf k (Char.ofNat small) != negated

def inSet (negated : Bool) (members : List Member) (c : Char) : Bool :=
  let found :=
    if a.ignoreCase && members.any a.memberCased then members.any (a.inMemberFolded · (a.lower c.toNat))
    else members.any (a.inMember · c)
  found != negated

end

end Alphabet

/-- A test of one character. -/
inductive Test where
  | literal (alphabet : Alphabet) (code : Nat) (negated : Bool)
  /-- Every character, or every one that does not end a line. -/
  | any (lineEnds : Bool)
  | set (alphabet : Alphabet) (negated : Bool) (members : List Member)
deriving DecidableEq, Repr

def Test.accepts (t : Test) (c : Char) : Bool :=
  match t with
  | .literal a code negated => a.isLiteral code c != negated
  | .any lineEnds => lineEnds || c != '\n'
  | .set a negated members => a.inSet negated members c

end Utterance.Pattern

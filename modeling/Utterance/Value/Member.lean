import Utterance.Scalar.Basic

/-!
# Members of sets

A set does not hold values but what is left of them: the scalar of a number or a text, the members of a set, and the
printed form of everything else. Members are equal if these are, so a set never holds two equal ones
(`Members.insert`). Members are printed as the values that they stand for (`Member.restored`), in the order of their
texts (`Member.sortText`).
-/

namespace Utterance

inductive Member where
  | number (s : Scalar)
  | string (s : Scalar)
  | set (members : List Member)
  | other (printed : String)
deriving Inhabited

namespace Member

mutual

/-- Equality; sets are equal if they have the same members, in whatever order. -/
def equal : Member → Member → Bool
  | number a, number b => a.same b
  | string a, string b => a.same b
  | set as, set bs => as.length == bs.length && allIn as bs
  | other a, other b => a == b
  | _, _ => false

/-- Whether all members of one list occur in another. -/
def allIn : List Member → List Member → Bool
  | [], _ => true
  | a :: as, bs => bs.any (equal a) && allIn as bs

end

instance : BEq Member := ⟨equal⟩

mutual

def sortText : Member → Except Fault String
  | number s => return "('number', " ++ (← s.quoted) ++ ")"
  | string s => return "('string', " ++ (← s.quoted) ++ ")"
  | other s => return "('other', " ++ Text.quoted s ++ ")"
  | set [] => return "('set', frozenset())"
  | set (m :: ms) => do
    let texts ← sortTexts (m :: ms)
    return "('set', frozenset(\x7b" ++ ", ".intercalate (texts.mergeSort (· ≤ ·)) ++ "\x7d))"

def sortTexts : List Member → Except Fault (List String)
  | [] => return []
  | m :: ms => return (← sortText m) :: (← sortTexts ms)

end

end Member

abbrev Members := List Member

namespace Members

def insert (ms : Members) (m : Member) : Members := if ms.any m.equal then ms else ms ++ [m]

def ofList (ms : List Member) : Members := ms.foldl insert []

def contains (ms : Members) (m : Member) : Bool := ms.any m.equal

def erase (ms : Members) (m : Member) : Members := ms.filter fun n => !m.equal n

def union (a b : Members) : Members := b.foldl insert a

def difference (a b : Members) : Members := a.filter fun m => !b.contains m

/-- The common members, in the form that the smaller set has them in. -/
def intersection (a b : Members) : Members :=
  if a.length < b.length then a.filter b.contains else b.filter a.contains

def symmetricDifference (a b : Members) : Members := a.difference b ++ b.difference a

def isSubset (a b : Members) : Bool := a.length ≤ b.length && Member.allIn a b

def equal (a b : Members) : Bool := a.length == b.length && Member.allIn a b

end Members

namespace Member

mutual

/-- What the value that a member stands for is as a member: a printed form has become a text, and a set is made anew
of what its members stand for. -/
def restored : Member → Member
  | number s => number s
  | string s => string s
  | set ms => set (Members.ofList (restoredAll ms))
  | other s => string (.text s)

def restoredAll : List Member → List Member
  | [] => []
  | m :: ms => restored m :: restoredAll ms

end

end Member

end Utterance

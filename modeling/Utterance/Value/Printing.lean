import Utterance.Value.Cell

/-!
# Printed forms of values

A value has a plain form, `Store.shown`, and one that tells texts from numbers, `Store.quoted`. Both may fail: an
integer with too many digits has no text, and a text cell that holds nothing has no plain form. A value that lies in
itself has no printed form at all (`Printing`).
-/

namespace Utterance

/-- The two forms in which values are printed. -/
inductive Form where
  | plain | quoted
deriving DecidableEq, Repr

def inQuotes (s : String) : String := "\"" ++ s ++ "\""

def Form.ofText (f : Form) (s : Scalar) : Except Fault String :=
  match f, s with
  | .plain, .absent => .error .absentText
  | .plain, s => s.printed
  | .quoted, s => return inQuotes (← s.printed)

/-- Texts in the order of other texts that go with them. -/
def sortedBy (keys texts : List String) : List String :=
  ((keys.zip texts).mergeSort fun a b => a.1 ≤ b.1).map (·.2)

/-- The printed form of a set whose members have these printed forms. -/
def bracketed (texts : List String) : String :=
  if texts.isEmpty then "\x7b: :\x7d" else "\x7b: " ++ ", ".intercalate texts ++ " :\x7d"

/-- What printing gives: a form or a fault, or nothing if it would not end. -/
abbrev Printing := ExceptT Fault Option

def Printing.lift {α : Type} (x : Except Fault α) : Printing α := ExceptT.mk (some x)

namespace Member

mutual

/-- The printed form of the value of a member that was restored. -/
def printed (f : Form) : Member → Except Fault String
  | number s => s.printed
  | string s => f.ofText s
  | other s => f.ofText (.text s)
  | set ms => return bracketed (sortedBy (← sortTexts ms) (← printedAll f ms))

def printedAll (f : Form) : List Member → Except Fault (List String)
  | [] => return []
  | m :: ms => return (← printed f m) :: (← printedAll f ms)

end

/-- The printed form of a set: the values that its members stand for, in the order of the texts of the members. -/
def printedSet (f : Form) (ms : Members) : Except Fault String :=
  return bracketed (sortedBy (← sortTexts ms) (← printedAll f (restoredAll ms)))

end Member

namespace Store

def keyText : Scalar → Except Fault String
  | .text s => .ok (inQuotes s)
  | s => s.printed

/-- The printed form of a value, given how the values in it are printed. -/
def printedWith (s : Store) (f : Form) (inner : Ref → Printing String) (r : Ref) : Printing String := do
  match (s.cell r).payload with
  | .number n => Printing.lift n.printed
  | .string t => Printing.lift (f.ofText t)
  | .list elements =>
    let texts ← elements.toList.mapM inner
    return if f = .quoted then "[" ++ ", ".intercalate texts ++ "]" else ", ".intercalate texts
  | .tuple elements =>
    let texts ← elements.mapM inner
    return if f = .quoted then "<" ++ ", ".intercalate texts ++ ">" else ", ".intercalate texts
  | .set ms => Printing.lift (Member.printedSet f ms)
  | .dict n =>
    let texts ← (s.table n).mapM fun (key, value) =>
      return (← Printing.lift (keyText key)) ++ ": " ++ (← inner value)
    return if f = .quoted then "\x7b" ++ ", ".intercalate texts ++ "\x7d" else ", ".intercalate texts
  | .function name _ _ => return "<function " ++ name ++ ">"
  | .builtin b => return "<built-in function " ++ b.name ++ ">"
  | .regex pattern _ => return "r" ++ inQuotes pattern
  | .found (some matched) => return "<Match: " ++ matched ++ ">"
  | .found none => return "<No Match>"
  | .error details title => return "<Error: " ++ title ++ ": " ++ details ++ ">"

/-- The printed form of a value in which values lie at most so deep in each other. -/
def printedTo (s : Store) (f : Form) : Nat → Ref → Printing String
  | 0, _ => ExceptT.mk none
  | depth + 1, r => s.printedWith f (s.printedTo f depth) r

/-- The printed form of a value. Where values lie deeper in each other than there are values, one lies in itself. -/
def printed (s : Store) (f : Form) (r : Ref) : Option (Except Fault String) := s.printedTo f (s.cells.size + 1) r

def shown (s : Store) (r : Ref) : Except Fault String := (s.printed .plain r).getD (.ok "...")

def quoted (s : Store) (r : Ref) : Except Fault String := (s.printed .quoted r).getD (.ok "...")

def member (s : Store) (r : Ref) : Printing Member :=
  match (s.cell r).payload with
  | .number n => return .number n
  | .string t => return .string t
  | .set ms => return .set ms
  | _ => return .other (← ExceptT.mk (s.printed .plain r))

def membersOf (s : Store) (rs : List Ref) : Printing Members := return Members.ofList (← rs.mapM s.member)

end Store

end Utterance

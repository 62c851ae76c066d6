import Utterance.Eval.Machine
import Utterance.Scalar.Arithmetic

/-!
# Operators

What the operators of the language do with two values. Most operators exist for a few types only; for all others
they end with an error, and a few operators that only one type knows end with a fault.
-/

namespace Utterance

inductive Operator where
  | add | sub | mul | div | mod | eq | ne | order (rel : Scalar.Order) | intersect | symmetricDifference | and | or
deriving DecidableEq, Repr

namespace Operator

def ofToken? (t : Token) : Option Operator :=
  match t.kind with
  | .plus => some .add
  | .minus => some .sub
  | .mul => some .mul
  | .div => some .div
  | .mod => some .mod
  | .ee => some .eq
  | .ne => some .ne
  | .lt => some (.order .lt)
  | .gt => some (.order .gt)
  | .lte => some (.order .le)
  | .gte => some (.order .ge)
  | .ampersand => some .intersect
  | .caret => some .symmetricDifference
  | _ => if t.isKeyword "and" then some .and else if t.isKeyword "or" then some .or else none

end Operator

/-- The place that an index means in a list of a given length; negative ones count from the end. -/
def index? (length : Nat) (i : Int) : Option Nat :=
  if 0 ≤ i then if i < length then some i.toNat else none
  else if -i ≤ length then some (i + length).toNat
  else none

/-- The place that a number means in a list of a given length. -/
def scalarIndex? (length : Nat) (s : Scalar) : Option Nat :=
  match s.toInteger with
  | .ok i => index? length i
  | .error _ => none

def truthNumber (b : Bool) : Payload := .number (.int (if b then 1 else 0))

def Payload.key? : Payload → Option Scalar
  | .number .absent | .string .absent => none
  | .number s | .string s => some s
  | _ => none

/-- Whether two values are equal; nothing if they cannot be compared. A set differs from everything that is none. -/
def Payload.equals? : Payload → Payload → Option Bool
  | .number a, .number b => some (a.equal b)
  | .string a, .string b => some (a.equal b)
  | .set a, .set b => some (a.equal b)
  | .set _, _ => some false
  | .found a, .found b => some (a.isSome == b.isSome)
  | _, _ => none

namespace Eval

variable {α : Type}

/-- Makes the result of an operation, in the frame of its left operand. -/
def resultOf (left : Cell) (p : Payload) : Eval Ref := alloc ⟨p, none, none, left.frame⟩

def errorOn (left right : Cell) (details : String) : Eval α := error right.start right.stop details left.levels

def immutable (left right : Cell) : Eval α := errorOn left right "Tuples are immutable and cannot be modified"

def badKey (left right : Cell) : Eval α := errorOn left right "Dictionary key must be a string or number"

def missingKey (key : Scalar) : Except Fault String :=
  return "Key \"" ++ (← key.printed) ++ "\" not found in dictionary"

def setResult (left right : Cell) (ms : Members) : Eval Ref := alloc ⟨.set ms, left.start, right.stop, left.frame⟩

/-- Makes a dictionary with a table of its own, where another one was seen. -/
def dictResult (left : Cell) (t : Table) : Eval Ref := do
  let n ← newTable t
  alloc { left with payload := .dict n }

/-- Appends the printed form of a value to a text; if printing fails, or the value lies in itself, the operation does
not exist. -/
def appendForm (left right : Cell) (s : Scalar) (form : Option (Except Fault String)) : Eval Ref :=
  match form.bind fun form => (do s.add (.text (← form)) : Except Fault Scalar).toOption with
  | some t => resultOf left (.string t)
  | none => illegal left right

/-- Sum. Appends to lists and texts, unites sets, and sets a key of a dictionary to a value, given as a list of
both. -/
def add (left right : Cell) (r : Ref) : Eval Ref := do
  match left.payload, right.payload with
  | .number a, .number b => resultOf left (.number (← lift (a.add b)))
  | .number a, .string b => resultOf left (.string (← lift do Scalar.add (.text (← a.printed)) b))
  | .string a, .string b => resultOf left (.string (← lift (a.add b)))
  | .string a, .number b => resultOf left (.string (← lift do a.add (.text (← b.printed))))
  | .string a, _ => appendForm left right a ((← store).printed .quoted r)
  | .list es, _ => alloc { left with payload := .list (es.push r) }
  | .tuple _, _ => immutable left right
  | .set a, .set b => setResult left right (a.union b)
  | .dict n, .list es =>
    if es.size = 2 then
      match (← payload (es.getD 0 0)).key? with
      | some key => dictResult left ((← table n).set key (es.getD 1 0))
      | none => badKey left right
    else illegal left right
  | _, _ => illegal left right

/-- Difference. Takes an element out of a list by its index, members out of a set, a key out of a dictionary. -/
def sub (left right : Cell) : Eval Ref := do
  match left.payload, right.payload with
  | .number a, .number b => resultOf left (.number (← lift (a.sub b)))
  | .list es, .number i =>
    match scalarIndex? es.size i with
    | some k => alloc { left with payload := .list (es.eraseIdxIfInBounds k) }
    | none =>
      errorOn left right "Element at this index could not be removed from list because index is out of bounds"
  | .tuple _, _ => immutable left right
  | .set a, .set b => setResult left right (a.difference b)
  | .dict n, p =>
    match p.key? with
    | none => badKey left right
    | some key =>
      let t ← table n
      if (t.get? key).isSome then dictResult left (t.erase key)
      else errorOn left right (← lift (missingKey key))
  | _, _ => illegal left right

def mul (left right : Cell) : Eval Ref := do
  match left.payload, right.payload with
  | .number a, .number b => resultOf left (.number (← lift (a.mul b)))
  | .string a, .number b => resultOf left (.string (← lift do a.mul (.int (← b.toInteger))))
  | .list a, .list b => alloc { left with payload := .list (a ++ b) }
  | .tuple a, .tuple b => alloc { left with payload := .tuple (a ++ b) }
  | _, _ => illegal left right

def entry (left right : Cell) (n : Nat) : Eval Ref := do
  match right.payload.key? with
  | none => badKey left right
  | some key =>
    match (← table n).get? key with
    | some r => return r
    | none => errorOn left right (← lift (missingKey key))

/-- Quotient of numbers, by a function that is not asked for zero. -/
def divide (f : Scalar → Scalar → Except Fault Scalar) (details : String) (left right : Cell) (a b : Scalar) :
    Eval Ref := do
  if b.isZero then errorOn left right details else resultOf left (.number (← lift (f a b)))

/-- Quotient. Also gives an element of a list or tuple by its index and the value of a key of a dictionary. -/
def div (left right : Cell) : Eval Ref := do
  match left.payload, right.payload with
  | .number a, .number b => divide Scalar.div "Division by zero" left right a b
  | .list es, .number i =>
    match scalarIndex? es.size i with
    | some k => return es.getD k 0
    | none =>
      errorOn left right "Element at this index could not be retrieved from list because index is out of bounds"
  | .tuple es, .number i =>
    match scalarIndex? es.length i with
    | some k => return es.getD k 0
    | none =>
      errorOn left right "Element at this index could not be retrieved from tuple because index is out of bounds"
  | .set _, _ => error left.start left.stop "Sets are unordered and do not support indexing" left.levels
  | .dict n, _ => entry left right n
  | _, _ => illegal left right

def mod (left right : Cell) : Eval Ref := do
  match left.payload, right.payload with
  | .number a, .number b => divide Scalar.mod "Modulo by zero" left right a b
  | .number _, _ => illegal left right
  | p, _ => noProperty p.typeName "modded_by"

def eq (left right : Cell) : Eval Ref :=
  match left.payload.equals? right.payload with
  | some b => resultOf left (truthNumber b)
  | none => illegal left right

/-- The truth value that equality gives; nothing if the values cannot be compared. -/
def equality? (l r : Ref) : Eval (Option Ref) := do
  let left ← cell l
  let right ← cell r
  match left.payload.equals? right.payload with
  | some b => return some (← resultOf left (truthNumber b))
  | none => return none

def ne (left right : Cell) : Eval Ref :=
  match left.payload, left.payload.equals? right.payload with
  | .found _, _ | _, none => illegal left right
  | _, some b => resultOf left (truthNumber !b)

def order (rel : Scalar.Order) (left right : Cell) : Eval Ref := do
  match left.payload, right.payload with
  | .number a, .number b | .string a, .string b => resultOf left (truthNumber (← lift (Scalar.ordered rel a b)))
  | _, _ => illegal left right

def onSets (f : Members → Members → Members) (property : String) (left right : Cell) : Eval Ref :=
  match left.payload, right.payload with
  | .set a, .set b => setResult left right (f a b)
  | .set _, _ => illegal left right
  | p, _ => noProperty p.typeName property

/-- One of two numbers as an integer: the first if `takeFirst` says so, else the second. -/
def choose (takeFirst : Scalar → Bool) (left right : Cell) : Eval Ref := do
  match left.payload, right.payload with
  | .number a, .number b => resultOf left (.number (.int (← lift (if takeFirst a then a else b).toInteger)))
  | _, _ => illegal left right

def binary (op : Operator) (l r : Ref) : Eval Ref := do
  let left ← cell l
  let right ← cell r
  match op with
  | .add => add left right r
  | .sub => sub left right
  | .mul => mul left right
  | .div => div left right
  | .mod => mod left right
  | .eq => eq left right
  | .ne => ne left right
  | .order rel => order rel left right
  | .intersect => onSets Members.intersection "intersected_with" left right
  | .symmetricDifference => onSets Members.symmetricDifference "symmetric_diff_with" left right
  | .and => choose Scalar.isFalsy left right
  | .or => choose (!·.isFalsy) left right

def negate (r : Ref) : Eval Ref := do mul (← cell r) (.fresh (.number (.int (-1))))

def negation (r : Ref) : Eval Ref := do
  let c ← cell r
  match c.payload with
  | .number s => resultOf c (truthNumber s.isZero)
  | _ => illegal c c

def isTrue (r : Ref) : Eval Bool := do
  match ← payload r with
  | .number s => return !s.isZero
  | .string (.text s) => return !s.isEmpty
  | .string s => fault (.noLength s.typeName)
  | .list es => return !es.isEmpty
  | .dict n => return !(← table n).isEmpty
  | .found m => return m.isSome
  | _ => return false

def scalar (r : Ref) : Eval Scalar := do
  match ← payload r with
  | .number s | .string s => return s
  | p => noProperty p.typeName "value"

end Eval

end Utterance

import Utterance.Pattern.Matching
import Utterance.Scope
import Utterance.Tree.Basic
import Utterance.Value.Builtin
import Utterance.Value.Member

/-!
# Values

A value lives in a cell of a store and is known by its reference. Besides its contents, a cell tells where in the
source the value was last seen and in which frame; both change whenever the value is used, also for everyone else who
holds the reference. Lists hold references to their elements; dictionaries hold the number of a table, which copies of
a dictionary share.
-/

namespace Utterance

abbrev Ref := Nat

/-- Where code runs: the calls around it and the scopes in which it looks names up, innermost first. -/
structure Frame where
  levels : List Level
  scopes : List Nat
deriving DecidableEq, Repr, Inhabited

/-- The contents of a cell. -/
inductive Payload where
  | number (s : Scalar)
  | string (s : Scalar)
  | list (elements : Array Ref)
  | tuple (elements : List Ref)
  | set (members : Members)
  /-- A dictionary, by the number of its table. -/
  | dict (table : Nat)
  | function (name : String) (params : List String) (body : Node)
  | builtin (b : Builtin)
  | regex (pattern : String) (compiled : Pattern.Compiled)
  /-- What a pattern matched at the start of a text, if it did. -/
  | found (matched : Option String)
  /-- A caught error, by its details and its heading. -/
  | error (details title : String)
deriving Inhabited

namespace Payload

def typeName : Payload → String
  | number _ => "Number"
  | string _ => "String"
  | list _ => "List"
  | tuple _ => "Tuple"
  | set _ => "Set"
  | dict _ => "Dict"
  | function .. => "Function"
  | builtin _ => "BuiltInFunction"
  | regex .. => "Regex"
  | found _ => "Match"
  | error .. => "ErrorValue"

end Payload

structure Cell where
  payload : Payload
  start : Option Position
  stop : Option Position
  frame : Option Frame
deriving Inhabited

namespace Cell

def fresh (p : Payload) : Cell := ⟨p, none, none, none⟩

/-- The calls around the code where a value was last seen. -/
def levels (c : Cell) : List Level := (c.frame.map Frame.levels).getD []

end Cell

/-- What a name stands for: a value, or a bare member of a set that a comprehension runs through. -/
inductive Binding where
  | value (r : Ref)
  | member (m : Member)
deriving Inhabited

/-- A name of a scope, and what it is bound to. -/
abbrev Entry := String × Option Binding

/-- Tables of dictionaries: keys with values, in the order in which the keys came. -/
abbrev Table := List (Scalar × Ref)

namespace Table

def get? (t : Table) (key : Scalar) : Option Ref := (t.find? fun e => e.1.same key).map (·.2)

/-- Sets the value of a key; a key that is already there keeps its place and its form. -/
def set (t : Table) (key : Scalar) (value : Ref) : Table :=
  if t.any (·.1.same key) then t.map fun e => if e.1.same key then (e.1, value) else e else t ++ [(key, value)]

def erase (t : Table) (key : Scalar) : Table := t.filter fun e => !e.1.same key

end Table

/-- All values that exist, with the tables of dictionaries and the scopes. -/
structure Store where
  cells : Array Cell
  tables : Array Table
  scopes : Array (Scope Binding)
deriving Inhabited

namespace Store

def null : Ref := 0

def truth : Ref := 2

def globalScope : Nat := 0

def givenCells : List Cell :=
  [.fresh (.number (.int 0)), .fresh (.number (.int 0)), .fresh (.number (.int 1))] ++
    Builtin.all.map fun b => .fresh (.builtin b)

def givenNames : List String := ["null", "false", "true"] ++ Builtin.all.map Builtin.name

def initial : Store where
  cells := givenCells.toArray
  tables := #[]
  scopes := #[⟨givenNames.mapIdx fun i name => (name, some (.value i)), none⟩]

def cell (s : Store) (r : Ref) : Cell := s.cells.getD r default

def table (s : Store) (n : Nat) : Table := s.tables.getD n []

def scope (s : Store) (n : Nat) : Scope Binding := s.scopes.getD n .empty

def lookup (s : Store) (frame : Frame) (name : String) : Option Binding :=
  Scope.lookup name (frame.scopes.map s.scope)

end Store

end Utterance

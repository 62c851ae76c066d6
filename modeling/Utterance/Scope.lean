import Utterance.Fault
import Utterance.Text.Quoted

/-!
# Scopes

A scope binds names. A name may be bound to nothing, and then it means what it means further out. `lookup` goes
through a list of scopes, innermost first.
-/

namespace Utterance

/-- The bindings of a scope, and the names that it shares, if it shares some. -/
structure Scope (β : Type) where
  bindings : List (String × Option β)
  exports : Option (List String)
deriving Inhabited

namespace Scope

variable {β : Type}

def empty : Scope β := ⟨[], none⟩

def get? (s : Scope β) (name : String) : Option β := (s.bindings.lookup name).join

/-- Binds a name, in the place of what it was bound to. -/
def bindIn (name : String) (value : Option β) : List (String × Option β) → List (String × Option β)
  | [] => [(name, value)]
  | (n, v) :: rest => if n = name then (n, value) :: rest else (n, v) :: bindIn name value rest

def set (s : Scope β) (name : String) (value : Option β) : Scope β :=
  { s with bindings := bindIn name value s.bindings }

def remove (s : Scope β) (name : String) : Except Fault (Scope β) :=
  if s.bindings.any (·.1 == name) then .ok { s with bindings := s.bindings.filter (·.1 != name) }
  else .error (.noKey (Text.quoted name))

/-- What a name means in the first scope that binds it to something. -/
def lookup (name : String) : List (Scope β) → Option β
  | [] => none
  | s :: outer => s.get? name <|> lookup name outer

/-- Shares from now on only what is shared expressly. -/
def beginSharing (s : Scope β) : Scope β := { s with exports := some (s.exports.getD []) }

def addExport (s : Scope β) (name : String) : Scope β :=
  let shared := s.exports.getD []
  { s with exports := some (if shared.contains name then shared else shared ++ [name]) }

/-- Whether a name is shared. A scope that shares nothing expressly shares all names without a leading underscore. -/
def isExported (s : Scope β) (name : String) : Bool :=
  match s.exports with
  | none => name.toList.head? != some '_'
  | some names => names.contains name

/-- The names that a scope shares, with what they are bound to. Names that are shared expressly may also be bound
further out. -/
def exported (s : Scope β) (outer : List (Scope β)) : List (String × Option β) :=
  match s.exports with
  | none => s.bindings.filter fun (name, _) => s.isExported name
  | some names => names.filterMap fun name => (lookup name (s :: outer)).map fun value => (name, some value)

/-- A module in one line: its name and the number of names that it binds. -/
def summary (s : Scope β) (name : String) : String :=
  "Module(" ++ name ++ ", " ++ toString s.bindings.length ++ " symbols)"

end Scope

end Utterance

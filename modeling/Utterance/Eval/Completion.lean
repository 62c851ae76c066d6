/-!
# Completions

A completion is the record of how the evaluation of a part ended, as the whole takes it over: with a value, an error,
a value that a function gives back, or a jump in a loop. At most one of these is set, by the last operation on the
record.
-/

namespace Utterance

structure Completion (ν : Type) where
  value : Option ν
  error : Option ν
  given : Option ν
  cut : Bool
  skip : Bool
deriving DecidableEq, Repr

namespace Completion

variable {ν : Type}

def empty : Completion ν := ⟨none, none, none, false, false⟩

/-- Takes over how a part ended, all but its value; the value is the result. -/
def register (c part : Completion ν) : Option ν × Completion ν :=
  (part.value, { c with error := part.error, given := part.given, cut := part.cut, skip := part.skip })

def success (value : Option ν) : Completion ν := { empty with value := value }

def giving (value : Option ν) : Completion ν := { empty with given := value }

def cutting : Completion ν := { empty with cut := true }

def skipping : Completion ν := { empty with skip := true }

def failure (error : Option ν) : Completion ν := { empty with error := error }

/-- Why the whole has to end too: an error or a given value that counts, or else whether there is a jump. -/
def reason (counts : ν → Bool) (c : Completion ν) : ν ⊕ Bool :=
  match c.error.filter counts <|> c.given.filter counts with
  | some v => .inl v
  | none => .inr (c.cut || c.skip)

end Completion

end Utterance

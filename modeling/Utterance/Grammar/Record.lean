/-!
# Records of readings

A record tells what a rule of the grammar has read so far: a node or an error, how many tokens it passed, and how many
tokens are to be given back after a failed attempt.
-/

namespace Utterance.Grammar

structure Record (ν : Type) where
  node : Option ν
  error : Option ν
  passed : Nat
  toGiveBack : Nat
deriving DecidableEq, Repr

namespace Record

variable {ν : Type}

def empty : Record ν := ⟨none, none, 0, 0⟩

def failed (counts : ν → Bool) (r : Record ν) : Bool := (r.error.filter counts).isSome

def pass (r : Record ν) : Record ν := { r with passed := r.passed + 1 }

/-- Takes over what a part read; the node of the part is the result. -/
def register (counts : ν → Bool) (r part : Record ν) : Option ν × Record ν :=
  (part.node, { r with passed := r.passed + part.passed, error := if part.failed counts then part.error else r.error })

/-- Takes over what a part read, unless it failed; then its tokens are to be given back. -/
def tryRegister (counts : ν → Bool) (r part : Record ν) : Option ν × Record ν :=
  if part.failed counts then (none, { r with toGiveBack := part.passed }) else r.register counts part

def success (r : Record ν) (node : Option ν) : Record ν := { r with node := node }

/-- Fails; an earlier error stays if something was read. -/
def failure (counts : ν → Bool) (r : Record ν) (error : Option ν) : Record ν :=
  if !r.failed counts || r.passed = 0 then { r with error := error } else r

end Record

end Utterance.Grammar

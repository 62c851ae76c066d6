import Utterance.Tree.Basic

/-!
# Reading tokens

A reading goes through a list of lexemes by index. It ends with a value, with a diagnostic, or with a fault, and
in the first two cases it says at which index it stands. Past the last lexeme the last one stays current.

A reading also counts the tokens it passes. The count of a sequence is the sum of the counts of its parts:
`Reading.reword` replaces the diagnostic of a reading that counted none, and `Reading.attempt` takes back as many
tokens as a reading counted that ended with a diagnostic.
-/

namespace Utterance.Grammar

/-- The lexemes to be read; `last` is current past the end. -/
structure Input where
  lexemes : Array Lexeme
  last : Lexeme

/-- How a reading ends. -/
inductive Reply (α : Type) where
  | ok (value : α) (idx : Nat)
  | fail (d : Diagnostic) (idx : Nat)
  | fault (f : Fault)
  /-- The bound on the depth of readings was reached. -/
  | exhausted

/-- The count of the tokens that were passed from an index on tells where a reading stands. -/
def Reply.Agrees {α : Type} (i : Nat) : Reply α × Nat → Prop
  | (.ok _ j, n) | (.fail _ j, n) => j = i + n
  | (.fault _, _) | (.exhausted, _) => True

theorem Reply.Agrees.add {α : Type} {i n : Nat} {r : Reply α × Nat} (h : Agrees (i + n) r) :
    Agrees i (r.1, n + r.2) := by
  obtain ⟨_ | _ | _ | _, m⟩ := r
  · exact h.trans (Nat.add_assoc i n m)
  · exact h.trans (Nat.add_assoc i n m)
  · trivial
  · trivial

/-- What is refused is refused for its syntax, and at a place. -/
def Reply.Syntactic {α : Type} : Reply α → Prop
  | .fail d _ => ∃ start stop details, d = .invalidSyntax start stop details
  | _ => True

/-- Something that is read from an index on. It counts the tokens that it passes, and where it ends, the count agrees
with the index. -/
structure Reading (α : Type) where
  run : Input → Nat → Reply α × Nat
  agrees : ∀ input i, Reply.Agrees i (run input i)
  syntactic : ∀ input i, Reply.Syntactic (run input i).1

namespace Reading

variable {α β : Type}

def reply (p : Reading α) (input : Input) (i : Nat) : Reply α := (p.run input i).1

/-- How many tokens a reading has counted at its end. -/
def passed (p : Reading α) (input : Input) (i : Nat) : Nat := (p.run input i).2

instance : CoeFun (Reading α) fun _ => Input → Nat → Reply α := ⟨reply⟩

def still (f : Input → Nat → Except Fault α) : Reading α where
  run input i :=
    match f input i with
    | .ok a => (.ok a i, 0)
    | .error e => (.fault e, 0)
  agrees input i := by cases f input i <;> simp [Reply.Agrees]
  syntactic input i := by cases f input i <;> trivial

def advance : Reading Unit := ⟨fun _ i => (.ok () (i + 1), 1), fun _ _ => rfl, fun _ _ => trivial⟩

def failWith (start stop : Position) (details : String) : Reading α :=
  ⟨fun _ i => (.fail (.invalidSyntax start stop details) i, 0), fun _ _ => rfl, fun _ _ => ⟨start, stop, details, rfl⟩⟩

def exhaust : Reading α := ⟨fun _ _ => (.exhausted, 0), fun _ _ => trivial, fun _ _ => trivial⟩

/-- What comes after a reply: the counts are added, unless there is nothing to go on with. -/
def andThen (f : α → Reading β) (input : Input) : Reply α × Nat → Reply β × Nat
  | (.ok a j, n) => (((f a).run input j).1, n + ((f a).run input j).2)
  | (.fail d j, n) => (.fail d j, n)
  | (.fault e, n) => (.fault e, n)
  | (.exhausted, n) => (.exhausted, n)

instance : Monad Reading where
  pure a := still fun _ _ => .ok a
  bind p f :=
    { run := fun input i => andThen f input (p.run input i)
      agrees := fun input i => by
        have hp := p.agrees input i
        generalize p.run input i = r at hp ⊢
        obtain ⟨⟨a, j⟩ | _ | _ | _, n⟩ := r
        · obtain rfl : j = i + n := hp
          exact ((f a).agrees input (i + n)).add
        · exact hp
        · trivial
        · trivial
      syntactic := fun input i => by
        have hp := p.syntactic input i
        generalize p.run input i = r at hp ⊢
        obtain ⟨⟨a, j⟩ | _ | _ | _, n⟩ := r
        · exact (f a).syntactic input j
        · exact hp
        · trivial
        · trivial }

def current : Reading Lexeme := still fun input i => .ok (input.lexemes[i]?.getD input.last)

/-- A bound on the number of tokens, for loops that pass one in each round. -/
def bound : Reading Nat := still fun input _ => .ok (input.lexemes.size + 1)

def raise (f : Fault) : Reading α := still fun _ _ => .error f

/-- The current token, when `property` is asked of it; a lexeme that is no token has no such property. -/
def tokenFor (property : String) : Reading Token := do
  match ← current with
  | .token t => return t
  | .refused _ => raise (.noAttribute "IllegalCharError" property)

def token : Reading Token := tokenFor "type"

def isKind (kind : Token.Kind) : Reading Bool := return (← token).kind == kind

def isWord (word : String) : Reading Bool := return (← tokenFor "matches").isKeyword word

def start : Reading Position := do
  match ← current with
  | .token t => return t.start
  | .refused d => return d.start.getD default

def stop : Reading Position := do
  match ← current with
  | .token t => return t.stop
  | .refused d => return d.stop.getD default

def refuse (details : String) : Reading α := do
  failWith (← start) (← stop) details

def expectKind (kind : Token.Kind) (details : String) : Reading Unit := do
  if ← isKind kind then advance else refuse details

def expectWord (word details : String) : Reading Unit := do
  if ← isWord word then advance else refuse details

def identifier (details : String) : Reading Token := do
  if ← isKind .identifier then
    let t ← token
    advance
    return t
  else refuse details

def skipKind (kind : Token.Kind) : Reading Bool := do
  if ← isKind kind then
    advance
    return true
  else return false

def skipWord (word : String) : Reading Bool := do
  if ← isWord word then
    advance
    return true
  else return false

/-- Replaces the diagnostic of a reading that has counted no token. -/
def reword (p : Reading α) (details : String) : Reading α where
  run input i :=
    match p.run input i with
    | (.fail d j, n) => if n = 0 then (refuse details).run input j else (.fail d j, n)
    | reply => reply
  agrees input i := by
    have hp := p.agrees input i
    generalize p.run input i = r at hp ⊢
    obtain ⟨_ | ⟨d, j⟩ | _ | _, n⟩ := r
    · exact hp
    · obtain rfl : j = i + n := hp
      cases n with
      | zero => exact (refuse details).agrees input i
      | succ n => rfl
    · trivial
    · trivial
  syntactic input i := by
    have hp := p.syntactic input i
    generalize p.run input i = r at hp ⊢
    obtain ⟨_ | ⟨d, j⟩ | _ | _, _ | n⟩ := r
    case fail.zero => exact (refuse details).syntactic input j
    all_goals exact hp

/-- Reads, and goes back as many tokens as were counted if that ends with a diagnostic; their number is then the
result. -/
def attempt (p : Reading α) : Reading (Except Nat α) where
  run input i :=
    match p.run input i with
    | (.ok a j, n) => (.ok (.ok a) j, n)
    | (.fail _ j, n) => (.ok (.error n) (j - n), 0)
    | (.fault f, n) => (.fault f, n)
    | (.exhausted, n) => (.exhausted, n)
  agrees input i := by
    have hp := p.agrees input i
    generalize p.run input i = r at hp ⊢
    obtain ⟨_ | ⟨_, j⟩ | _ | _, n⟩ := r
    · exact hp
    · obtain rfl : j = i + n := hp
      exact Nat.add_sub_cancel i n
    · trivial
    · trivial
  syntactic input i := by
    generalize p.run input i = r
    obtain ⟨_ | _ | _ | _, n⟩ := r <;> trivial

/-- Passes tokens of a kind, at most as many as the fuel says, and counts them. -/
def skipAll (kind : Token.Kind) : Nat → Reading Nat
  | 0 => return 0
  | n + 1 => do
    if ← skipKind kind then return (← skipAll kind n) + 1 else return 0

def newlines : Reading Nat := do skipAll .newline (← bound)

/-- Reads further items, each after a separator that `more` passes. -/
def manyAfter (more : Reading Bool) (item : Reading α) : Nat → Reading (List α)
  | 0 => return []
  | n + 1 => do
    if ← more then
      let x ← item
      return x :: (← manyAfter more item n)
    else return []

/-- Reads items as long as `more` passes something before each. -/
def many (more : Reading Bool) (item : Reading α) : Reading (List α) := do manyAfter more item (← bound)

def commaSeparated (item : Reading α) : Reading (List α) := do
  let first ← item
  return first :: (← many (skipKind .comma) item)

end Reading

end Utterance.Grammar

import Utterance.Modules.Loader
import Utterance.Value.Printing

/-!
# The machine

Evaluation changes a world: the store, what was printed, what is left to read, and the modules. It ends with a
result or with a signal, which is an error that programs can handle, a jump, or something that ends the program. The
world keeps its changes when a signal passes. A world also keeps a log of the calls that were made, the modules that
were asked for and loaded, the scripts that were run, those that failed, and the names that were shared; nothing reads
it, but it tells what happened on the way.
-/

namespace Utterance

/-- How evaluation ends without a result. -/
inductive Signal where
  | error (d : Diagnostic)
  /-- A function gives a value back. -/
  | give (r : Ref)
  /-- The innermost loop ends. -/
  | cut
  /-- The innermost loop goes on with its next round. -/
  | skip
  | fault (f : Fault)
  /-- The program asked to end. -/
  | exit
  /-- The user asked to end while something was read. -/
  | interrupt
  /-- Evaluation never ends. -/
  | exhausted

/-- A loaded module: its own scope and those around it, by their numbers. -/
structure LoadedModule where
  scope : Nat
  outer : List Nat
deriving Inhabited

/-- What a log keeps. -/
inductive Event where
  /-- A call was entered, of a built-in function or of one that a program defines: its arguments are bound in the
  frame. -/
  | called (builtin : Option Builtin) (frame : Frame) (args : List Ref)
  /-- A module was asked for. -/
  | brought (name : String)
  /-- The loading of a module was begun; its source, and the loader before. -/
  | begun (source : Source) (before : Loader LoadedModule)
  /-- The module of a path was loaded and is remembered. -/
  | completed (path : String)
  /-- The script of a file was run. -/
  | ran (source : Source)
  /-- A module or a script failed while it was executed; the error that follows quotes its report. -/
  | failed (name : String)
  /-- A statement that shares names was begun in a scope. -/
  | sharing (scope : Nat)
  /-- A name was put among those that a scope shares. -/
  | shared (scope : Nat) (name : String)

structure World where
  store : Store
  /-- Everything that was printed. -/
  out : String
  /-- What is left to read. -/
  input : List Char
  files : Files
  loader : Loader LoadedModule
  /-- What happened, the latest first. -/
  log : List Event

/-- How evaluation ends: with a result or a signal, and the world that it leaves. -/
abbrev Outcome := EStateM.Result Signal World

abbrev Eval := EStateM Signal World

namespace World

/-- How many values there are. -/
abbrev size (w : World) : Nat := w.store.cells.size

abbrev scopeCount (w : World) : Nat := w.store.scopes.size

protected abbrev cell (w : World) (r : Ref) : Cell := w.store.cell r

protected abbrev scope (w : World) (n : Nat) : Scope Binding := w.store.scope n

def initial (files : Files) (input : String) : World := ⟨.initial, "", input.toList, files, .empty, []⟩

end World

namespace Eval

variable {α : Type}

def fault (f : Fault) : Eval α := throw (.fault f)

def lift (x : Except Fault α) : Eval α :=
  match x with
  | .ok a => return a
  | .error f => fault f

def ofPrinting (x : Printing α) : Eval α :=
  match x.run with
  | some x => lift x
  | none => throw .exhausted

def noProperty (type property : String) : Eval α := fault (.noAttribute type property)

def store : Eval Store := return (← get).store

def modifyStore (f : Store → Store) : Eval Unit := modify fun w => { w with store := f w.store }

def cell (r : Ref) : Eval Cell := return (← get).store.cell r

def payload (r : Ref) : Eval Payload := return (← cell r).payload

def alloc (c : Cell) : Eval Ref :=
  modifyGet fun w => (w.store.cells.size, { w with store := { w.store with cells := w.store.cells.push c } })

/-- Makes a new value that was not seen anywhere yet. -/
def fresh (p : Payload) : Eval Ref := alloc (.fresh p)

def modifyCell (r : Ref) (f : Cell → Cell) : Eval Unit :=
  modifyStore fun s => { s with cells := s.cells.modify r f }

def place (r : Ref) (span : Span) : Eval Ref := do
  modifyCell r fun c => { c with start := some span.start, stop := some span.stop }
  return r

def frameIn (r : Ref) (frame : Frame) : Eval Ref := do
  modifyCell r fun c => { c with frame := some frame }
  return r

def make (p : Payload) (span : Span) (frame : Frame) : Eval Ref :=
  alloc ⟨p, some span.start, some span.stop, some frame⟩

/-- Makes another value with the contents of a value. Copies of a dictionary share its table. -/
def copy (r : Ref) : Eval Ref := do alloc (← cell r)

def table (n : Nat) : Eval Table := return (← get).store.table n

def modifyTable (n : Nat) (f : Table → Table) : Eval Unit :=
  modifyStore fun s => { s with tables := s.tables.modify n f }

def newTable (t : Table) : Eval Nat :=
  modifyGet fun w => (w.store.tables.size, { w with store := { w.store with tables := w.store.tables.push t } })

def newScope : Eval Nat :=
  modifyGet fun w =>
    (w.store.scopes.size, { w with store := { w.store with scopes := w.store.scopes.push .empty } })

def modifyScope (n : Nat) (f : Scope Binding → Scope Binding) : Eval Unit :=
  modifyStore fun s => { s with scopes := s.scopes.modify n f }

def bind (frame : Frame) (name : String) (b : Binding) : Eval Unit :=
  match frame.scopes with
  | n :: _ => modifyScope n (·.set name (some b))
  | [] => return ()

def lookup (frame : Frame) (name : String) : Eval (Option Binding) := return (← get).store.lookup frame name

/-- Ends with an error at a place, with the calls around it. -/
def error (start stop : Option Position) (details : String) (levels : List Level) : Eval α :=
  throw (.error ⟨.runtime levels, start, stop, details⟩)

def errorAt (span : Span) (details : String) (frame : Frame) : Eval α :=
  error (some span.start) (some span.stop) details frame.levels

/-- Ends with the error that an operation does not exist for two values. -/
def illegal (left right : Cell) : Eval α := error left.start right.stop "Illegal operation" left.levels

def shown (r : Ref) : Eval String := do ofPrinting (ExceptT.mk ((← store).printed .plain r))

def quoted (r : Ref) : Eval String := do ofPrinting (ExceptT.mk ((← store).printed .quoted r))

def record (e : Event) : Eval Unit := modify fun w => { w with log := e :: w.log }

def printLine (s : String) : Eval Unit := modify fun w => { w with out := w.out ++ s ++ "\n" }

def print (s : String) : Eval Unit := modify fun w => { w with out := w.out ++ s }

/-- What a line of input has to be for the user to have interrupted. -/
def interruptLine : List Char := ['\x03']

def readLine : Eval String := do
  let rest := (← get).input
  if rest.isEmpty then fault .endOfInput
  else
    let line := rest.takeWhile (· != '\n')
    modify fun w => { w with input := (rest.dropWhile (· != '\n')).drop 1 }
    if line = interruptLine then throw .interrupt else return String.ofList line

/-- Goes on from the outcome of a step, unless it gave a result or failed. -/
def continued {σ : Type} (again : σ → World → Option (Outcome α)) : Outcome (σ ⊕ α) → Option (Outcome α)
  | .ok (.inl s) w => again s w
  | .ok (.inr a) w => some (.ok a w)
  | .error e w => some (.error e w)

section

variable {σ : Type} (step : σ → Eval (σ ⊕ α))

/-- Repeats a step from a state on until it gives a result; nothing if it never does. -/
def iterate? (s : σ) (w : World) : Option (Outcome α) := continued (by apply iterate?) (step s w)
partial_fixpoint monotonicity by
  intro f g h s w
  dsimp only
  unfold continued
  split
  · exact h _ _
  · constructor
  · constructor

end

/-- Repeats a step from a state on until it gives a result. -/
def iterate {σ : Type} (step : σ → Eval (σ ⊕ α)) (s : σ) : Eval α := fun w =>
  (iterate? step s w).getD (.error .exhausted w)

end Eval

end Utterance

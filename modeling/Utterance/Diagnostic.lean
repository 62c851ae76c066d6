import Utterance.Excerpt
import Utterance.Fault

/-!
# Diagnostics

A diagnostic is an error that a program makes and that is reported with its place: unreadable text, a text that
is no program, a failing operation, a module that is missing or that brings itself in. `Diagnostic.render` is
the report. A value that never got a place makes a diagnostic without one, and then the report fails.
-/

namespace Utterance

/-- One level of a call: its name and the place from which it was entered. -/
structure Level where
  name : String
  entry : Option Position
deriving DecidableEq, Repr, Inhabited

namespace Diagnostic

/-- The kinds of diagnostics, with what only their reports need. -/
inductive Kind where
  | illegalCharacter
  | invalidSyntax
  /-- A failing operation, with the levels of calls around it, innermost first. -/
  | runtime (levels : List Level)
  /-- A missing module, with the paths where it was looked for. -/
  | moduleNotFound (searched : List String)
  /-- A module that brings itself in, with the paths from the first to the last one on the way. -/
  | circularImport (chain : List String)
deriving DecidableEq, Repr

end Diagnostic

structure Diagnostic where
  kind : Diagnostic.Kind
  start : Option Position
  stop : Option Position
  details : String
deriving DecidableEq, Repr

namespace Diagnostic

def illegalCharacter (start stop : Position) (details : String) : Diagnostic :=
  ⟨.illegalCharacter, some start, some stop, details⟩

def invalidSyntax (start stop : Position) (details : String) : Diagnostic :=
  ⟨.invalidSyntax, some start, some stop, details⟩

def title (d : Diagnostic) : String :=
  match d.kind with
  | .illegalCharacter => "Illegal Character"
  | .invalidSyntax => "Invalid Syntax"
  | .runtime _ => "Runtime Error"
  | .moduleNotFound _ => "Module Not Found"
  | .circularImport _ => "Circular Import"

def headline (d : Diagnostic) : String := d.title ++ ": " ++ d.details

/-- A place that has to be there; `property` is what is asked of it. -/
def need (place : Option Position) (property : String) : Except Fault Position :=
  match place with
  | some p => .ok p
  | none => .error (.noAttribute "NoneType" property)

def lineNumber (p : Position) : String := toString (p.ln + 1)

/-- The calls around a place, outermost first, one line each. -/
def traceback : List Level → Option Position → Except Fault String
  | [], _ => .ok ""
  | level :: outer, place => do
    let p ← need place "fn"
    let before ← traceback outer level.entry
    return before ++ "  File " ++ p.source.name ++ ", line " ++ lineNumber p ++ ", in " ++ level.name ++ "\n"

/-- The excerpt of a diagnostic, after an empty line. -/
def excerpt (d : Diagnostic) : Except Fault String := do
  let start ← need d.start "ftxt"
  let stop ← need d.stop "ln"
  return "\n\n" ++ Excerpt.render start.source.text start stop

def listing (heading : String) (lines : List String) : String :=
  if lines.isEmpty then "" else "\n\n" ++ heading ++ String.join (lines.map ("\n  " ++ ·))

def fileLine (d : Diagnostic) : Except Fault String := do
  let start ← need d.start "fn"
  return "\nFile " ++ start.source.name ++ ", line " ++ lineNumber start

def numbered (lines : List String) : List String :=
  lines.mapIdx fun i line => toString (i + 1) ++ ". " ++ line

def render (d : Diagnostic) : Except Fault String :=
  match d.kind with
  | .runtime levels => do
    let trace ← traceback levels d.start
    return "Traceback (most recent call last):\n" ++ trace ++ d.headline ++ (← d.excerpt)
  | .illegalCharacter | .invalidSyntax => return d.headline ++ (← d.fileLine) ++ (← d.excerpt)
  | .moduleNotFound searched =>
    return d.headline ++ (← d.fileLine) ++ listing "Searched in:" (searched.map ("- " ++ ·)) ++ (← d.excerpt)
  | .circularImport chain =>
    return d.headline ++ (← d.fileLine) ++ listing "Import chain:" (numbered chain) ++ (← d.excerpt)

end Diagnostic

end Utterance

import Utterance.Pattern.Parser
import Utterance.Pattern.Matching

/-!
# Patterns as a whole

* `compile` makes a pattern of a text;
* `Compiled.findAll` lists what a pattern matches, `Compiled.split` the pieces between the matches;
* `Compiled.replace` puts a replacement in the place of each match. In a replacement, a backslash announces a
  control character or a group.
-/

namespace Utterance.Pattern

/-- Why there is no pattern or no replacement: the text is invalid, or something else fails. -/
inductive Refusal where
  | invalid (report : String)
  | fault (f : Fault)
deriving DecidableEq, Repr

def Failure.refusal (text : String) : Failure → Refusal
  | .problem p => .invalid (p.render text)
  | .fault f => .fault f

def compile (pattern : String) : Except Refusal Compiled :=
  let result : Except Failure Compiled := do
    let p ← parse pattern
    let flags := if p.flags.ascii then p.flags else { p.flags with unicode := true }
    return ⟨← compileSequence p.widths flags p.items, p.groups, p.names⟩
  result.mapError (·.refusal pattern)

/-- A part of a replacement. -/
inductive Part where
  | char (c : Char)
  | group (n : Nat)
deriving DecidableEq, Repr

/-- The part that refers to a group of a pattern, unless it has too few. -/
def groupPart (p : Compiled) (n offset : Nat) : Parsing Part :=
  if p.groups < n then Parsing.problem ("invalid group reference " ++ toString n) offset else return .group n

def bracketedGroup (p : Compiled) : Parsing Part := do
  if ← Parsing.skip '<' then
    let name ← Parsing.nameUpTo '>' "group name"
    let offset := name.length + 1
    if Text.isName name then
      match p.names.lookup name with
      | some n => groupPart p n offset
      | none => throw (.fault (.unknownGroup (Text.quoted name)))
    else
      match Scalar.readInteger name with
      | .ok (.ofNat n) =>
        if maxGroups ≤ n then Parsing.problem ("invalid group reference " ++ toString n) offset
        else groupPart p n offset
      | _ => Parsing.problem ("bad character in group name " ++ Text.quoted name) offset
  else Parsing.problem "missing <" 0

/-- A part that starts with a backslash and a digit other than zero: three octal digits, or a group of one or two
digits. -/
def digitPart (p : Compiled) (c : Char) : Parsing Part := do
  match ← Parsing.next? with
  | some (.char d) =>
    if d.isDigit then
      let _ ← Parsing.take?
      match ← Parsing.next? with
      | some (.char e) =>
        if isOctal c && isOctal d && isOctal e then
          let _ ← Parsing.take?
          return .char (Char.ofNat (← octalEscape [c, d, e]))
        else groupPart p (readBase 10 [c, d]) 2
      | _ => groupPart p (readBase 10 [c, d]) 2
    else groupPart p (readBase 10 [c]) 1
  | _ => groupPart p (readBase 10 [c]) 1

/-- The parts that an escape of a replacement stands for. -/
def escapeParts (p : Compiled) (c : Char) : Parsing (List Part) := do
  if c = 'g' then return [← bracketedGroup p]
  else if c = '0' then
    let digits ← Parsing.takeUpTo isOctal 2
    return [.char (Char.ofNat (readBase 8 digits))]
  else if c.isDigit then return [← digitPart p c]
  else
    match controlEscape? c with
    | some code => return [.char (Char.ofNat code)]
    | none => if c.isAlpha then badEscape ['\\', c] else return [.char '\\', .char c]

def parts (p : Compiled) : Nat → Parsing (List Part)
  | 0 => return []
  | n + 1 => do
    match ← Parsing.take? with
    | none => return []
    | some (.char c) => return .char c :: (← parts p n)
    | some (.escape c) =>
      let found ← escapeParts p c
      return found ++ (← parts p n)

def readReplacement (p : Compiled) (template : String) : Except Refusal (List Part) :=
  let reader : Parsing (List Part) := do
    Parsing.check
    parts p (← Parsing.bound)
  match reader.run ⟨template.toList.toArray, 0, .none, #[], [], none, []⟩ with
  | .ok found _ => .ok found
  | .error e _ => .error (e.refusal template)

def between (text : Array Char) (start stop : Nat) : List Char := (text.extract start stop).toList

/-- The text of a group of a match, if it holds any; group zero is the match itself. -/
def Match.group? (m : Match) (text : Array Char) (n : Nat) : Option (List Char) :=
  if n = 0 then some (between text m.start m.stop)
  else ((m.groups[n - 1]?).getD none).map fun (start, stop) => between text start stop

def Match.texts (m : Match) (text : Array Char) : List (Option String) :=
  m.groups.map fun g => g.map fun (start, stop) => String.ofList (between text start stop)

/-- What a part of a replacement becomes for a match. -/
def Part.expand (text : Array Char) (m : Match) : Part → List Char
  | .char c => [c]
  | .group n => (m.group? text n).getD []

/-- The text after an index with all matches replaced. -/
def replaceFrom (text : Array Char) (expand : Match → List Char) : Nat → List Match → List Char
  | idx, [] => between text idx text.size
  | idx, m :: rest => between text idx m.start ++ expand m ++ replaceFrom text expand m.stop rest

/-- The pieces after an index, with the texts of groups in between. -/
def splitPieces (text : Array Char) : Nat → List Match → List (Option String)
  | idx, [] => [some (String.ofList (between text idx text.size))]
  | idx, m :: rest =>
    some (String.ofList (between text idx m.start)) :: m.texts text ++ splitPieces text m.stop rest

namespace Compiled

def replace (p : Compiled) (template : String) (s : String) : Except Refusal String := do
  let found ← readReplacement p template
  let text := s.toList.toArray
  return String.ofList (replaceFrom text (fun m => found.flatMap (·.expand text m)) 0 (p.allMatches text))

/-- The pieces of a text between the matches, with the texts of groups in between. -/
def split (p : Compiled) (s : String) : List (Option String) :=
  let text := s.toList.toArray
  splitPieces text 0 (p.allMatches text)

/-- What each match is listed as: the texts of its groups, or the whole match if the pattern has none. -/
def findAll (p : Compiled) (s : String) : List (List String) :=
  let text := s.toList.toArray
  (p.allMatches text).map fun m =>
    if p.groups = 0 then [String.ofList (between text m.start m.stop)] else (m.texts text).map (·.getD "")

end Compiled

end Utterance.Pattern

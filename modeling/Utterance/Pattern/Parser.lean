import Utterance.Pattern.Item
import Utterance.Scalar.Integer
import Utterance.Text.Names

/-!
# From texts to parsed patterns

A pattern is read in units: characters, and backslashes with the character after them. `parse` gives the items of
a pattern with what is known of its groups, or the problem that makes the text no pattern.
-/

namespace Utterance.Pattern

/-- A unit of a pattern. -/
inductive Piece where
  | char (c : Char)
  | escape (c : Char)
deriving DecidableEq, Repr

namespace Piece

def chars : Piece → List Char
  | char c => [c]
  | escape c => ['\\', c]

def length (p : Piece) : Nat := p.chars.length

end Piece

/-- The state of a parser. -/
structure Progress where
  text : Array Char
  /-- Where the next unit starts. -/
  idx : Nat
  flags : Flags
  /-- The widths of all groups so far, from group zero on; those of incomplete ones are missing. -/
  widths : Array (Option (Nat × Nat))
  names : List (String × Nat)
  /-- The number of groups before the outermost pattern that looks behind and is being read. -/
  behind : Option Nat
  /-- The groups that conditions ask for by number, with the places where they do so first. -/
  asked : List (Nat × Nat)

abbrev Parsing := EStateM Failure Progress

namespace Parsing

/-- Ends with a problem a number of characters before the current place. -/
def problem {α : Type} (message : String) (offset : Nat) : Parsing α := do
  throw (.problem ⟨message, some ((← get).idx - offset)⟩)

def here : Parsing Nat := return (← get).idx

def next? : Parsing (Option Piece) := do
  let s ← get
  match s.text[s.idx]? with
  | none => return none
  | some '\\' =>
    match s.text[s.idx + 1]? with
    | some c => return some (.escape c)
    | none => return none
  | some c => return some (.char c)

/-- A backslash at the very end is found as soon as it comes next. -/
def check : Parsing Unit := do
  let s ← get
  if s.text[s.idx]? = some '\\' ∧ s.text.size ≤ s.idx + 1 then
    throw (.problem ⟨"bad escape (end of pattern)", some (s.text.size - 1)⟩)

def seek (idx : Nat) : Parsing Unit := do
  modify fun s => { s with idx := idx }
  check

def take? : Parsing (Option Piece) := do
  match ← next? with
  | none => return none
  | some p =>
    seek ((← here) + p.length)
    return some p

def skip (c : Char) : Parsing Bool := do
  if (← next?) = some (.char c) then
    let _ ← take?
    return true
  else return false

def takeUpTo (p : Char → Bool) : Nat → Parsing (List Char)
  | 0 => return []
  | n + 1 => do
    match ← next? with
    | some (.char c) =>
      if p c then
        let _ ← take?
        return c :: (← takeUpTo p n)
      else return []
    | _ => return []

/-- A bound for loops that pass a unit in each round. -/
def bound : Parsing Nat := return (← get).text.size + 1

def takeWhile (p : Char → Bool) : Parsing (List Char) := do takeUpTo p (← bound)

def untilChar (closing : Char) (what : String) : Nat → List Char → Parsing (List Char)
  | 0, name => return name
  | n + 1, name => do
    match ← take? with
    | none =>
      if name.isEmpty then problem ("missing " ++ what) 0
      else problem ("missing " ++ String.singleton closing ++ ", unterminated name") name.length
    | some p =>
      if p = .char closing then
        if name.isEmpty then problem ("missing " ++ what) 1 else return name
      else untilChar closing what n (name ++ p.chars)

def nameUpTo (closing : Char) (what : String) : Parsing String := do
  return String.ofList (← untilChar closing what (← bound) [])

end Parsing

open Parsing

def isOctal (c : Char) : Bool := '0' ≤ c && c ≤ '7'

def isHex (c : Char) : Bool := c.isDigit || ('a' ≤ c && c ≤ 'f') || ('A' ≤ c && c ≤ 'F')

def hexValue (c : Char) : Nat :=
  if c.isDigit then c.toNat - '0'.toNat
  else if 'a' ≤ c then c.toNat - 'a'.toNat + 10
  else c.toNat - 'A'.toNat + 10

def readBase (base : Nat) (ds : List Char) : Nat := ds.foldl (fun n d => n * base + hexValue d) 0

def controlEscape? : Char → Option Nat
  | 'a' => some 7
  | 'b' => some 8
  | 'f' => some 12
  | 'n' => some 10
  | 'r' => some 13
  | 't' => some 9
  | 'v' => some 11
  | '\\' => some 92
  | _ => none

def categoryEscape? : Char → Option Member
  | 'd' => some (.category .digit false)
  | 'D' => some (.category .digit true)
  | 's' => some (.category .space false)
  | 'S' => some (.category .space true)
  | 'w' => some (.category .word false)
  | 'W' => some (.category .word true)
  | _ => none

def anchorEscape? : Char → Option Anchor
  | 'A' => some .textStart
  | 'b' => some .boundary
  | 'B' => some .noBoundary
  | 'Z' => some .textEnd
  | _ => none

def badEscape {α : Type} (escape : List Char) : Parsing α :=
  problem ("bad escape " ++ String.ofList escape) escape.length

/-- A character given by exactly so many hexadecimal digits. -/
def hexEscape (letter : Char) (count : Nat) : Parsing Nat := do
  let ds ← takeUpTo isHex count
  let escape := '\\' :: letter :: ds
  if ds.length = count then
    let code := readBase 16 ds
    if 0x10FFFF < code then badEscape escape else return code
  else problem ("incomplete escape " ++ String.ofList escape) escape.length

/-- A character given by its name; no names are known. -/
def namedEscape : Parsing Nat := do
  if ← skip '{' then
    let name ← nameUpTo '}' "character name"
    problem ("undefined character name " ++ Text.quoted name) (name.length + 4)
  else problem "missing \x7b" 0

/-- The escapes that mean one character both inside and outside of a set. -/
def commonEscape (c : Char) : Parsing Nat := do
  match c with
  | 'x' => hexEscape 'x' 2
  | 'u' => hexEscape 'u' 4
  | 'U' => hexEscape 'U' 8
  | 'N' => namedEscape
  | c => if c.isAlpha then badEscape ['\\', c] else return c.toNat

def octalEscape (digits : List Char) : Parsing Nat := do
  let code := readBase 8 digits
  let escape := '\\' :: digits
  if 0o377 < code then
    problem ("octal escape value " ++ String.ofList escape ++ " outside of range 0-0o377") escape.length
  else return code

def setEscape (c : Char) : Parsing Member := do
  match controlEscape? c, categoryEscape? c with
  | some code, _ => return .literal code
  | none, some m => return m
  | none, none =>
    if isOctal c then return .literal (← octalEscape (c :: (← takeUpTo isOctal 2)))
    else if c.isDigit then badEscape ['\\', c]
    else return .literal (← commonEscape c)

def isComplete (n : Nat) : Parsing Bool := return (((← get).widths[n]?).getD none).isSome

/-- Refuses references from a pattern that looks behind to a group inside of it. -/
def checkBehind (n : Nat) : Parsing Unit := do
  match (← get).behind with
  | none => return ()
  | some groups =>
    if !(← isComplete n) then problem "cannot refer to an open group" 0
    else if groups ≤ n then problem "cannot refer to group defined in the same lookbehind subpattern" 0
    else return ()

def numberedReference (digits : List Char) : Parsing Item := do
  let n := readBase 10 digits
  if n < (← get).widths.size then
    if ← isComplete n then
      checkBehind n
      return .reference n
    else problem "cannot refer to an open group" (digits.length + 1)
  else problem ("invalid group reference " ++ toString n) digits.length

/-- An escape that begins with a digit other than zero: three octal digits, or a reference of one or two digits. -/
def digitEscape (c : Char) : Parsing Item := do
  match ← next? with
  | some (.char d) =>
    if d.isDigit then
      let _ ← take?
      match ← next? with
      | some (.char e) =>
        if isOctal c && isOctal d && isOctal e then
          let _ ← take?
          return .literal (← octalEscape [c, d, e])
        else numberedReference [c, d]
      | _ => numberedReference [c, d]
    else numberedReference [c]
  | _ => numberedReference [c]

def itemEscape (c : Char) : Parsing Item := do
  match anchorEscape? c, categoryEscape? c, controlEscape? c with
  | some a, _, _ => return .anchor a
  | none, some m, _ => return .set false [m]
  | none, none, some code => return .literal code
  | none, none, none =>
    if c = '0' then return .literal (readBase 8 (c :: (← takeUpTo isOctal 2)))
    else if c.isDigit then digitEscape c
    else return .literal (← commonEscape c)

def member (p : Piece) : Parsing Member :=
  match p with
  | .escape c => setEscape c
  | .char c => return .literal c.toNat

/-- Reads the members of a set up to its closing bracket; the set started at `start`. -/
def members (start : Nat) : Nat → List Member → Parsing (List Member)
  | 0, found => return found.reverse
  | n + 1, found => do
    let unterminated {α : Type} : Parsing α := do problem "unterminated character set" ((← here) - start)
    match ← take? with
    | none => unterminated
    | some p =>
      if p = .char ']' ∧ !found.isEmpty then return found.reverse
      else
        let low ← member p
        if ← skip '-' then
          match ← take? with
          | none => unterminated
          | some (.char ']') => return (Member.literal '-'.toNat :: low :: found).reverse
          | some q =>
            let high ← member q
            let bad {α : Type} : Parsing α :=
              problem ("bad character range " ++ String.ofList p.chars ++ "-" ++ String.ofList q.chars)
                (p.length + 1 + q.length)
            match low, high with
            | .literal a, .literal b => if b < a then bad else members start n (.range a b :: found)
            | _, _ => bad
        else members start n (low :: found)

def setItem : Parsing Item := do
  let start := (← here) - 1
  let negated ← skip '^'
  let found ← members start (← bound) []
  match found.eraseDups with
  | [.literal code] => return if negated then .notLiteral code else .literal code
  | distinct => return .set negated distinct

def maxRepeat : Nat := 4294967295

def repeatCount (digits : List Char) : Parsing Nat := do
  if Fault.digitLimit < digits.length then throw (.fault (.tooManyDigitsIn digits.length))
  else
    let n := readBase 10 digits
    if maxRepeat ≤ n then throw (.fault .repetitionTooLarge) else return n

/-- Bounds in braces, after the opening one; nothing if what follows is no such thing. -/
def braceBounds : Parsing (Option (Nat × Option Nat)) := do
  let start ← here
  if (← next?) = some (.char '}') then return none
  else
    let low ← takeWhile Char.isDigit
    let high ← if ← skip ',' then takeWhile Char.isDigit else pure low
    if ← skip '}' then
      let min ← if low.isEmpty then pure 0 else repeatCount low
      let max ← if high.isEmpty then pure none else some <$> repeatCount high
      match max with
      | some m =>
        if m < min then problem "min repeat greater than max repeat" ((← here) - start) else return some (min, max)
      | none => return some (min, max)
    else
      seek start
      return none

/-- The bounds that a repetition character announces. -/
def repeatBounds (c : Char) : Parsing (Option (Nat × Option Nat)) := do
  match c with
  | '?' => return some (0, some 1)
  | '*' => return some (0, none)
  | '+' => return some (1, none)
  | _ => braceBounds

/-- The mark after a repetition that says how much it takes. -/
def greed : Parsing Greed := do
  match ← next? with
  | some (.char '?') =>
    let _ ← take?
    return .lazy
  | some (.char '+') =>
    let _ ← take?
    return .possessive
  | _ => return .greedy

/-- Makes a repetition of the last item; `start` is the index after the repetition character. -/
def repeatLast (start : Nat) (bounds : Nat × Option Nat) (found : List Item) : Parsing (List Item) := do
  let refuse {α : Type} (message : String) : Parsing α := do problem message ((← here) - start + 1)
  match found with
  | [] | .anchor _ :: _ => refuse "nothing to repeat"
  | .repetition .. :: _ => refuse "multiple repeat"
  | item :: before =>
    let body :=
      match item with
      | .group none add remove body => if add = .none ∧ remove = .none then body else [item]
      | _ => [item]
    return .repetition bounds.1 bounds.2 (← greed) body :: before

/-- The flag of a letter; the letter `L` is known but never allowed. -/
def flag? : Char → Option Flags
  | 'i' => some { Flags.none with ignoreCase := true }
  | 'm' => some { Flags.none with multiline := true }
  | 's' => some { Flags.none with dotAll := true }
  | 'x' => some { Flags.none with verbose := true }
  | 'a' => some { Flags.none with ascii := true }
  | 'u' => some { Flags.none with unicode := true }
  | 't' => some { Flags.none with template := true }
  | 'L' => some Flags.none
  | _ => none

def pieceFlag? : Piece → Option (Char × Flags)
  | .char c => (flag? c).map (c, ·)
  | .escape _ => none

/-- Complains about a unit where a flag was expected. -/
def noFlag {α : Type} (p : Piece) (missing : String) : Parsing α :=
  match p with
  | .char c => problem (if Text.isAlphabetic c then "unknown flag" else missing) p.length
  | .escape _ => problem missing p.length

/-- Reads flags to turn on, up to the character that ends them. -/
def flagsOn : Nat → Char → Flags → Flags → Parsing (Flags × Char)
  | 0, c, _, on => return (on, c)
  | n + 1, c, flag, on => do
    if c = 'L' then problem "bad inline flags: cannot use 'L' flag with a str pattern" 0
    else
      let on := on.union flag
      if on.ascii && on.unicode && (flag.ascii || flag.unicode) then
        problem "bad inline flags: flags 'a', 'u' and 'L' are incompatible" 0
      else
        match ← take? with
        | none => problem "missing -, : or )" 0
        | some p =>
          if p = .char ')' then return (on, ')')
          else if p = .char '-' then return (on, '-')
          else if p = .char ':' then return (on, ':')
          else
            match pieceFlag? p with
            | some (d, flag) => flagsOn n d flag on
            | none => noFlag p "missing -, : or )"

def flagsOff : Nat → Char → Flags → Flags → Parsing Flags
  | 0, _, _, off => return off
  | n + 1, c, flag, off => do
    if flag.ascii || flag.unicode || c = 'L' then
      problem "bad inline flags: cannot turn off flags 'a', 'u' and 'L'" 0
    else
      let off := off.union flag
      match ← take? with
      | none => problem "missing :" 0
      | some p =>
        if p = .char ':' then return off
        else
          match pieceFlag? p with
          | some (d, flag) => flagsOff n d flag off
          | none => noFlag p "missing :"

/-- Reads flags after `(?`, from a given character on: those turned on and off in a group, or nothing if they were
turned on for the whole pattern. -/
def groupFlags (c : Char) : Parsing (Option (Flags × Flags)) := do
  let (on, closing) ←
    match flag? c with
    | some flag => flagsOn (← bound) c flag .none
    | none => pure (Flags.none, '-')
  if closing = ')' then
    modify fun s => { s with flags := s.flags.union on }
    return none
  else if on.template then problem "bad inline flags: cannot turn on global flag" 1
  else
    let off ←
      if closing = '-' then
        match ← take? with
        | none => problem "missing flag" 0
        | some p =>
          match pieceFlag? p with
          | some (d, flag) => flagsOff (← bound) d flag .none
          | none => noFlag p "missing flag"
      else pure Flags.none
    if off.template then problem "bad inline flags: cannot turn off global flag" 1
    else if on.meets off then problem "bad inline flags: flag turned on and off" 1
    else return some (on, off)

def checkName (name : String) : Parsing Unit :=
  if Text.isName name then return ()
  else problem ("bad character in group name " ++ Text.quoted name) (name.length + 1)

def openGroup (name : Option String) : Parsing Nat := do
  let s ← get
  let n := s.widths.size
  match name with
  | none => set { s with widths := s.widths.push none }
  | some name =>
    match s.names.lookup name with
    | some m =>
      problem ("redefinition of group name " ++ Text.quoted name ++ " as group " ++ toString n ++ "; was group " ++
        toString m) (name.length + 1)
    | none => set { s with widths := s.widths.push none, names := s.names ++ [(name, n)] }
  return n

def closeGroup (n : Nat) (body : List Item) : Parsing Unit :=
  modify fun s => { s with widths := s.widths.setIfInBounds n (some (sequenceWidth s.widths.toList body)) }

def groupNamed (name : String) : Parsing Nat := do
  match (← get).names.lookup name with
  | some n => return n
  | none => problem ("unknown group name " ++ Text.quoted name) (name.length + 1)

def namedReference : Parsing Item := do
  let name ← nameUpTo ')' "group name"
  checkName name
  let n ← groupNamed name
  if ← isComplete n then
    checkBehind n
    return .reference n
  else problem "cannot refer to an open group" (name.length + 1)

def maxGroups : Nat := 1073741823

def conditionGroup : Parsing Nat := do
  let name ← nameUpTo ')' "group name"
  let n ←
    if Text.isName name then groupNamed name
    else
      match Scalar.readInteger name with
      | .ok (.ofNat 0) => problem "bad group number" (name.length + 1)
      | .ok (.ofNat n) =>
        if maxGroups ≤ n then problem ("invalid group reference " ++ toString n) (name.length + 1)
        else
          let place := (← here) - name.length - 1
          modify fun s => if (s.asked.lookup n).isSome then s else { s with asked := s.asked ++ [(n, place)] }
          pure n
      | _ => problem ("bad character in group name " ++ Text.quoted name) (name.length + 1)
  checkBehind n
  return n

/-- Passes a comment in parentheses, which started at `start`. -/
def comment (start : Nat) : Nat → Parsing Unit
  | 0 => return ()
  | n + 1 => do
    match ← take? with
    | none => problem "missing ), unterminated comment" ((← here) - start)
    | some p => if p = .char ')' then return () else comment start n

def lineComment : Nat → Parsing Unit
  | 0 => return ()
  | n + 1 => do
    match ← take? with
    | none => return ()
    | some p => if p = .char '\n' then return () else lineComment n

def closeParen (start : Nat) : Parsing Unit := do
  if ← skip ')' then return () else problem "missing ), unterminated subpattern" ((← here) - start)

def takeOption : Parsing Piece := do
  match ← take? with
  | some p => return p
  | none => problem "unexpected end of pattern" 0

/-- What a parenthesis begins: a group to be read with these settings, or an item that is already complete. -/
inductive Opening where
  | group (capture atomic : Bool) (name : Option String) (add remove : Flags)
  | look (behind negative : Bool)
  | condition
  | item (i : Item)
  | nothing
  /-- Flags for the whole pattern. -/
  | global

/-- Reads what follows `(?`; the parenthesis is at `start`. -/
def openingOption (start : Nat) : Parsing Opening := do
  let p ← takeOption
  let unknown {α : Type} (mark : String) (q : Piece) (offset : Nat) : Parsing α :=
    problem ("unknown extension ?" ++ mark ++ String.ofList q.chars) (q.length + offset)
  match p with
  | .char 'P' =>
    if ← skip '<' then
      let name ← nameUpTo '>' "group name"
      checkName name
      return .group true false (some name) .none .none
    else if ← skip '=' then return .item (← namedReference)
    else unknown "P" (← takeOption) 2
  | .char ':' => return .group false false none .none .none
  | .char '#' =>
    comment start (← bound)
    return .nothing
  | .char '=' => return .look false false
  | .char '!' => return .look false true
  | .char '<' =>
    match ← takeOption with
    | .char '=' => return .look true false
    | .char '!' => return .look true true
    | q => unknown "<" q 2
  | .char '(' => return .condition
  | .char '>' => return .group false true none .none .none
  | .char c =>
    if (flag? c).isSome || c = '-' then
      match ← groupFlags c with
      | none => return .global
      | some (add, remove) => return .group false false none add remove
    else unknown "" p 1
  | .escape _ => unknown "" p 1

/-- Puts the items of groups that neither capture nor change flags into the sequence itself. -/
def unpack : List Item → List Item
  | [] => []
  | item :: rest =>
    match item with
    | .group none add remove body => if add = .none ∧ remove = .none then body ++ unpack rest else item :: unpack rest
    | _ => item :: unpack rest

/-- Whether a character is passed over where blanks do not count. -/
def isVerboseBlank (c : Char) : Bool := [' ', '\t', '\n', '\r', '\x0b', '\x0c'].contains c

mutual

/-- Reads alternatives with bars in between; `found` are those so far, reversed. -/
def choice : Nat → Bool → Bool → List (List Item) → Parsing (List Item)
  | 0, _, _, _ => return []
  | n + 1, verbose, nested, found => do
    let items ← sequence n verbose (!nested && found.isEmpty) []
    if ← skip '|' then
      let verbose ← if nested then pure verbose else pure (← get).flags.verbose
      choice n verbose nested (items :: found)
    else
      match found with
      | [] => return items
      | _ => return [.branch (items :: found).reverse]

/-- Reads items up to a bar, a closing parenthesis or the end; `found` are those so far, reversed, and `first` says
that flags for the whole pattern may stand here. -/
def sequence : Nat → Bool → Bool → List Item → Parsing (List Item)
  | 0, _, _, found => return unpack found.reverse
  | n + 1, verbose, first, found => do
    match ← next? with
    | none => return unpack found.reverse
    | some (.escape c) =>
      let _ ← take?
      let item ← itemEscape c
      sequence n verbose first (item :: found)
    | some (.char c) =>
      if c = '|' ∨ c = ')' then return unpack found.reverse
      else
        let _ ← take?
        if verbose && isVerboseBlank c then sequence n verbose first found
        else if verbose && c = '#' then
          lineComment (← bound)
          sequence n verbose first found
        else if c = '[' then
          let item ← setItem
          sequence n verbose first (item :: found)
        else if c = '*' ∨ c = '+' ∨ c = '?' ∨ c = '{' then
          let start ← here
          match ← repeatBounds c with
          | none => sequence n verbose first (.literal c.toNat :: found)
          | some bounds =>
            let found ← repeatLast start bounds found
            sequence n verbose first found
        else if c = '.' then sequence n verbose first (.any :: found)
        else if c = '^' then sequence n verbose first (.anchor .lineStart :: found)
        else if c = '$' then sequence n verbose first (.anchor .lineEnd :: found)
        else if c = '(' then
          let start := (← here) - 1
          let opening ← if ← skip '?' then openingOption start else pure (.group true false none .none .none)
          match opening with
          | .nothing => sequence n verbose first found
          | .item item => sequence n verbose first (item :: found)
          | .global =>
            if !first || !found.isEmpty then
              problem "global flags not at the start of the expression" ((← here) - start)
            else
              let verbose := (← get).flags.verbose
              sequence n verbose first found
          | .look behind negative =>
            let outer := (← get).behind
            if behind && outer.isNone then modify fun s => { s with behind := some s.widths.size }
            let body ← choice n verbose true []
            if behind && outer.isNone then modify fun s => { s with behind := none }
            closeParen start
            sequence n verbose first (.look behind negative body :: found)
          | .condition =>
            let group ← conditionGroup
            let yes ← sequence n verbose false []
            let no ←
              if ← skip '|' then
                let no ← sequence n verbose false []
                if (← next?) = some (.char '|') then problem "conditional backref with more than two branches" 0
                else pure no
              else pure []
            closeParen start
            sequence n verbose first (.conditional group yes no :: found)
          | .group capture atomic name add remove =>
            let number ← if capture then some <$> openGroup name else pure none
            let body ← choice n ((verbose || add.verbose) && !remove.verbose) true []
            closeParen start
            match number with
            | some m => closeGroup m body
            | none => pure ()
            let item := if atomic then Item.atomic body else .group number add remove body
            sequence n verbose first (item :: found)
        else sequence n verbose first (.literal c.toNat :: found)

end

/-- A pattern that was read. -/
structure Parsed where
  items : List Item
  flags : Flags
  /-- The number of groups. -/
  groups : Nat
  names : List (String × Nat)
  widths : List (Option (Nat × Nat))

/-- Reads a whole pattern. The depth of the recursion is at most that of two rules per character. -/
def wholePattern : Parsing Parsed := do
  check
  let items ← choice (3 * (← bound) + 3) false false []
  let s ← get
  if s.flags.ascii && s.flags.unicode then throw (.fault .alphabetsClash)
  else if (← next?).isSome then problem "unbalanced parenthesis" 0
  else
    match s.asked.find? fun (n, _) => s.widths.size ≤ n with
    | some (n, place) => throw (.problem ⟨"invalid group reference " ++ toString n, some place⟩)
    | none => return ⟨items, s.flags, s.widths.size - 1, s.names, s.widths.toList⟩

def parse (pattern : String) : Except Failure Parsed :=
  match wholePattern.run ⟨pattern.toList.toArray, 0, .none, #[none], [], none, []⟩ with
  | .ok p _ => .ok p
  | .error e _ => .error e

end Utterance.Pattern

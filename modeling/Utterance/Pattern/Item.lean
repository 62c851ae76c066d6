import Utterance.Fault

/-!
# Parsed patterns

A pattern is parsed into a sequence of items. `sequenceWidth` gives the least and the greatest number of
characters that a sequence can match; a pattern that looks behind has to have these two equal.
-/

namespace Utterance.Pattern

/-- Switches that a pattern turns on and off. -/
structure Flags where
  ignoreCase : Bool
  multiline : Bool
  dotAll : Bool
  verbose : Bool
  ascii : Bool
  unicode : Bool
  template : Bool
deriving DecidableEq, Repr, Inhabited

namespace Flags

def none : Flags := ⟨false, false, false, false, false, false, false⟩

def union (a b : Flags) : Flags :=
  ⟨a.ignoreCase || b.ignoreCase, a.multiline || b.multiline, a.dotAll || b.dotAll, a.verbose || b.verbose,
    a.ascii || b.ascii, a.unicode || b.unicode, a.template || b.template⟩

def without (a b : Flags) : Flags :=
  ⟨a.ignoreCase && !b.ignoreCase, a.multiline && !b.multiline, a.dotAll && !b.dotAll, a.verbose && !b.verbose,
    a.ascii && !b.ascii, a.unicode && !b.unicode, a.template && !b.template⟩

def meets (a b : Flags) : Bool :=
  (a.ignoreCase && b.ignoreCase) || (a.multiline && b.multiline) || (a.dotAll && b.dotAll) ||
    (a.verbose && b.verbose) || (a.ascii && b.ascii) || (a.unicode && b.unicode) || (a.template && b.template)

/-- The flags after a group turned some on and others off; a choice between alphabets replaces the other one. -/
def change (flags add remove : Flags) : Flags :=
  let base := if add.ascii || add.unicode then { flags with ascii := false, unicode := false } else flags
  (base.union add).without remove

end Flags

/-- Classes of characters that have a letter. -/
inductive Category where
  | digit | space | word
deriving DecidableEq, Repr

/-- A member of a set of characters; characters are given by code points. -/
inductive Member where
  | literal (code : Nat)
  | range (low high : Nat)
  | category (c : Category) (negated : Bool)
deriving DecidableEq, Repr

/-- Places in a text. -/
inductive Anchor where
  | textStart | lineStart | boundary | noBoundary | lineEnd | textEnd
deriving DecidableEq, Repr

/-- How much a repetition takes: as much as possible, as little as possible, or as much as possible for good. -/
inductive Greed where
  | greedy | lazy | possessive
deriving DecidableEq, Repr

inductive Item where
  | literal (code : Nat)
  | notLiteral (code : Nat)
  | any
  | set (negated : Bool) (members : List Member)
  | anchor (a : Anchor)
  | reference (group : Nat)
  | conditional (group : Nat) (yes no : List Item)
  | group (number : Option Nat) (add remove : Flags) (body : List Item)
  | atomic (body : List Item)
  | look (behind negative : Bool) (body : List Item)
  | repetition (min : Nat) (max : Option Nat) (greed : Greed) (body : List Item)
  | branch (options : List (List Item))
deriving Inhabited

def maxWidth : Nat := Nat.pow 2 64

def clampWidth (w : Nat × Nat) : Nat × Nat := (min w.1 maxWidth, min w.2 maxWidth)

mutual

/-- The widths of an item; `widths` gives those of the groups that are complete. -/
def Item.width (widths : List (Option (Nat × Nat))) : Item → Nat × Nat
  | .literal _ | .notLiteral _ | .any | .set _ _ => (1, 1)
  | .anchor _ | .look _ _ _ => (0, 0)
  | .reference n => ((widths[n]?).getD none).getD (0, 0)
  | .conditional _ yes no =>
    let (i, j) := sequenceWidth widths yes
    let (l, h) := sequenceWidth widths no
    (min i l, max j h)
  | .group _ _ _ body | .atomic body => sequenceWidth widths body
  | .repetition low high _ body =>
    let (i, j) := sequenceWidth widths body
    (i * low,
      match high with
      | some n => j * n
      | none => if j = 0 then 0 else maxWidth)
  | .branch options => branchWidth widths options

def sequenceWidth (widths : List (Option (Nat × Nat))) : List Item → Nat × Nat
  | [] => (0, 0)
  | item :: rest =>
    let (i, j) := item.width widths
    let (l, h) := sequenceWidth widths rest
    clampWidth (i + l, j + h)

def branchWidth (widths : List (Option (Nat × Nat))) : List (List Item) → Nat × Nat
  | [] => (maxWidth, 0)
  | option :: rest =>
    let (i, j) := sequenceWidth widths option
    let (l, h) := branchWidth widths rest
    (min i l, max j h)

end

/-- Why a text is no pattern, and where. -/
structure Problem where
  message : String
  position : Option Nat
deriving DecidableEq, Repr

namespace Problem

/-- The report of a problem; in a pattern of several lines it tells line and column. -/
def render (p : Problem) (pattern : String) : String :=
  match p.position with
  | none => p.message
  | some pos =>
    let before := pattern.toList.take pos
    let line := before.count '\n' + 1
    let column := (before.reverse.takeWhile (· != '\n')).length + 1
    let place := p.message ++ " at position " ++ toString pos
    if pattern.toList.contains '\n' then
      place ++ " (line " ++ toString line ++ ", column " ++ toString column ++ ")"
    else place

end Problem

/-- Why a text cannot be made a pattern: it is none, or something else fails. -/
inductive Failure where
  | problem (p : Problem)
  | fault (f : Fault)
deriving DecidableEq, Repr

end Utterance.Pattern

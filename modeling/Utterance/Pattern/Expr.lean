import Utterance.Pattern.Letters

/-!
# Matching expressions

A parsed pattern becomes an expression that is built from single characters by sequence, choice and repetition.
Flags are resolved on the way: each test knows its alphabet, each anchor whether lines count.
-/

namespace Utterance.Pattern

/-- A place in a text, with everything resolved that flags decide. -/
inductive Place where
  | textStart
  | lineStart
  | textEnd
  /-- The end of the text, or the place before a line end that the text ends with. -/
  | lastLineEnd
  | lineEnd
  /-- A place where a word starts or ends, or, negated, one where none does. -/
  | boundary (alphabet : Alphabet) (negated : Bool)
deriving DecidableEq, Repr

inductive Expr where
  | empty
  | char (test : Test)
  | place (p : Place)
  | seq (a b : Expr)
  /-- Matches the first alternative if it can, else the second. -/
  | alt (a b : Expr)
  | group (number : Nat) (a : Expr)
  | repetition (min : Nat) (max : Option Nat) (greed : Greed) (a : Expr)
  /-- Matches nothing where the expression matches from here on, or so many characters before. -/
  | look (back : Option Nat) (negative : Bool) (a : Expr)
  /-- The text of a group again. -/
  | reference (alphabet : Alphabet) (group : Nat)
  | conditional (group : Nat) (yes no : Expr)
  /-- Matches in one way only. -/
  | atomic (a : Expr)
deriving Inhabited

def Flags.alphabet (f : Flags) : Alphabet := ⟨!f.unicode, f.ignoreCase⟩

def Anchor.place (f : Flags) : Anchor → Place
  | .textStart => .textStart
  | .textEnd => .textEnd
  | .lineStart => if f.multiline then .lineStart else .textStart
  | .lineEnd => if f.multiline then .lineEnd else .lastLineEnd
  | .boundary => .boundary f.alphabet false
  | .noBoundary => .boundary f.alphabet true

/-- What a repetition is called where none is allowed. -/
def Greed.operator : Greed → String
  | .greedy => "MAX_REPEAT"
  | .lazy => "MIN_REPEAT"
  | .possessive => "POSSESSIVE_REPEAT"

mutual

/-- The expression of an item; `widths` gives those of groups. -/
def Item.compile (widths : List (Option (Nat × Nat))) (f : Flags) : Item → Except Failure Expr
  | .literal code => .ok (.char (.literal f.alphabet code false))
  | .notLiteral code => .ok (.char (.literal f.alphabet code true))
  | .any => .ok (.char (.any f.dotAll))
  | .set negated members => .ok (.char (.set f.alphabet negated members))
  | .anchor a => .ok (.place (a.place f))
  | .reference n => .ok (.reference f.alphabet n)
  | .conditional n yes no => return .conditional n (← compileSequence widths f yes) (← compileSequence widths f no)
  | .group number add remove body => do
    let e ← compileSequence widths (f.change add remove) body
    return match number with
      | some n => .group n e
      | none => e
  | .atomic body => return .atomic (← compileSequence widths f body)
  | .look behind negative body => do
    if behind then
      let (low, high) := sequenceWidth widths body
      if low = high then return .look (some low) negative (← compileSequence widths f body)
      else throw (.problem ⟨"look-behind requires fixed-width pattern", none⟩)
    else return .look none negative (← compileSequence widths f body)
  | .repetition min max greed body => do
    if f.template then throw (.problem ⟨"internal: unsupported template operator " ++ greed.operator, none⟩)
    else return .repetition min max greed (← compileSequence widths f body)
  | .branch options => compileBranch widths f options

def compileSequence (widths : List (Option (Nat × Nat))) (f : Flags) : List Item → Except Failure Expr
  | [] => .ok .empty
  | item :: rest => return .seq (← item.compile widths f) (← compileSequence widths f rest)

def compileBranch (widths : List (Option (Nat × Nat))) (f : Flags) : List (List Item) → Except Failure Expr
  | [] => .ok .empty
  | [option] => compileSequence widths f option
  | option :: rest => return .alt (← compileSequence widths f option) (← compileBranch widths f rest)

end

end Utterance.Pattern

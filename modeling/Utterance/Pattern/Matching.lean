import Utterance.Pattern.Expr

/-!
# Matching

`Expr.run` tries the ways in which an expression matches at a place, in order of preference, and gives the first one
after which the rest of the work succeeds. The rest of the work is a function, so that going back to the next way is
nothing but going on after a failure.
-/

namespace Utterance.Pattern

/-- How far a match has come: a place, and the parts of the text that groups hold. -/
structure Spot where
  pos : Nat
  groups : Array (Option (Nat × Nat))
deriving Inhabited

abbrev Rest := Spot → Option Spot

namespace Spot

def atPos (s : Spot) (pos : Nat) : Spot := { s with pos := pos }

def capture (s : Spot) (n start : Nat) : Spot := { s with groups := s.groups.setIfInBounds n (some (start, s.pos)) }

def held (s : Spot) (n : Nat) : Option (Nat × Nat) := (s.groups[n]?).getD none

end Spot

def wordAt (text : Array Char) (a : Alphabet) (idx : Nat) : Bool :=
  match text[idx]? with
  | some c => a.isOf .word c
  | none => false

/-- Whether a place in a text is of a kind. An empty text has no place of the boundary kinds. -/
def Place.holds (text : Array Char) (pos : Nat) : Place → Bool
  | .textStart => pos = 0
  | .lineStart => pos = 0 || text[pos - 1]? = some '\n'
  | .textEnd => pos = text.size
  | .lastLineEnd => pos = text.size || (pos + 1 = text.size && text[pos]? = some '\n')
  | .lineEnd => pos = text.size || text[pos]? = some '\n'
  | .boundary a negated =>
    let before := pos != 0 && wordAt text a (pos - 1)
    text.size != 0 && (before != wordAt text a pos) != negated

def mayRepeat (max : Option Nat) (count : Nat) : Bool :=
  match max with
  | some m => count < m
  | none => true

/-- Repeats as often as possible. Beyond the least number, a repetition has to start at another place than the one
before it. `fuel` bounds the repetitions still to come. -/
def repeatGreedy (body : Rest → Rest) (min : Nat) (max : Option Nat) (k : Rest) : Nat → Nat → Option Nat → Rest
  | 0, _, _, s => k s
  | fuel + 1, count, last, s =>
    if count < min then body (repeatGreedy body min max k fuel (count + 1) last) s
    else
      let more :=
        if mayRepeat max count && last != some s.pos then
          body (repeatGreedy body min max k fuel (count + 1) (some s.pos)) s
        else none
      more <|> k s

def repeatLazy (body : Rest → Rest) (min : Nat) (max : Option Nat) (k : Rest) : Nat → Nat → Option Nat → Rest
  | 0, _, _, s => k s
  | fuel + 1, count, last, s =>
    if count < min then body (repeatLazy body min max k fuel (count + 1) last) s
    else
      k s <|>
        if mayRepeat max count && last != some s.pos then
          body (repeatLazy body min max k fuel (count + 1) (some s.pos)) s
        else none

/-- Repeats as often as possible and never goes back. -/
def repeatPossessive (body : Rest → Rest) (min : Nat) (max : Option Nat) : Nat → Nat → Option Nat → Rest
  | 0, _, _, s => some s
  | fuel + 1, count, last, s =>
    if count < min then (body some s).bind (repeatPossessive body min max fuel (count + 1) last)
    else if mayRepeat max count && last != some s.pos then
      match body some s with
      | some t => repeatPossessive body min max fuel (count + 1) (some s.pos) t
      | none => some s
    else some s

def sameText (text : Array Char) (a : Alphabet) (start pos : Nat) : Nat → Bool
  | 0 => true
  | n + 1 =>
    (match text[start]?, text[pos]? with
      | some c, some d =>
        if a.ignoreCase then a.lower c.toNat == a.lower d.toNat else c == d
      | _, _ => false) && sameText text a (start + 1) (pos + 1) n

/-- The first way in which an expression matches from a place on, such that the rest matches too. -/
def Expr.run (text : Array Char) : Expr → Rest → Rest
  | .empty, k, s => k s
  | .char t, k, s =>
    match text[s.pos]? with
    | some c => if t.accepts c then k (s.atPos (s.pos + 1)) else none
    | none => none
  | .place p, k, s => if p.holds text s.pos then k s else none
  | .seq a b, k, s => a.run text (b.run text k) s
  | .alt a b, k, s => a.run text k s <|> b.run text k s
  | .group n a, k, s => a.run text (fun t => k (t.capture n s.pos)) s
  | .repetition min max greed a, k, s =>
    let fuel := min + (text.size - s.pos) + 2
    match greed with
    | .greedy => repeatGreedy (a.run text) min max k fuel 0 none s
    | .lazy => repeatLazy (a.run text) min max k fuel 0 none s
    | .possessive => (repeatPossessive (a.run text) min max fuel 0 none s).bind k
  | .look back negative a, k, s =>
    let width := back.getD 0
    let found := if width ≤ s.pos then a.run text some (s.atPos (s.pos - width)) else none
    match found with
    | some t => if negative then none else k (t.atPos s.pos)
    | none => if negative then k s else none
  | .reference a n, k, s =>
    match s.held n with
    | some (start, stop) =>
      if sameText text a start s.pos (stop - start) then k (s.atPos (s.pos + (stop - start))) else none
    | none => none
  | .conditional n yes no, k, s => if (s.held n).isSome then yes.run text k s else no.run text k s
  | .atomic a, k, s => (a.run text some s).bind k

/-- A compiled pattern. -/
structure Compiled where
  expr : Expr
  /-- The number of groups. -/
  groups : Nat
  names : List (String × Nat)
deriving Inhabited

/-- A match: where it starts and ends, and the parts that groups hold, from group one on. -/
structure Match where
  start : Nat
  stop : Nat
  groups : List (Option (Nat × Nat))
deriving DecidableEq, Repr, Inhabited

namespace Compiled

/-- The match from a place on, if there is one; `moving` asks for one that is not empty. -/
def matchAt? (p : Compiled) (text : Array Char) (pos : Nat) (moving : Bool) : Option Match :=
  let final : Rest := fun t => if moving && t.pos == pos then none else some t
  (p.expr.run text final ⟨pos, Array.replicate (p.groups + 1) none⟩).map fun t =>
    ⟨pos, t.pos, (t.groups.toList.drop 1)⟩

/-- The first match from a place on; `left` is the number of places still to try after it, and `moving` asks for a
match that is not empty if it starts right there. -/
def searchFrom? (p : Compiled) (text : Array Char) : Nat → Nat → Bool → Option Match
  | left, pos, moving =>
    match p.matchAt? text pos moving with
    | some m => some m
    | none =>
      match left with
      | 0 => none
      | left + 1 => p.searchFrom? text left (pos + 1) false

def search? (p : Compiled) (text : Array Char) : Option Match := p.searchFrom? text text.size 0 false

/-- All matches from a place on, each after the one before it. -/
def matchesFrom (p : Compiled) (text : Array Char) : Nat → Nat → Bool → List Match
  | 0, _, _ => []
  | fuel + 1, pos, moving =>
    match p.searchFrom? text (text.size - pos) pos moving with
    | none => []
    | some m => m :: p.matchesFrom text fuel m.stop (m.start == m.stop)

/-- All matches. Each is longer than nothing or follows one that is, so there are at most two for a character. -/
def allMatches (p : Compiled) (text : Array Char) : List Match :=
  p.matchesFrom text (2 * text.size + 2) 0 false

end Compiled

end Utterance.Pattern

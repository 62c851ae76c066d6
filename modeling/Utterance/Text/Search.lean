/-!
# Searching, cutting and joining texts

Texts are treated as lists of characters, from the left. `splitOn` cuts at every occurrence of a separator that
does not overlap an earlier one, and `replaceAll` puts something else there.
-/

namespace Utterance.Text

/-- What is left of a text after a given beginning, if it begins so. -/
def dropFront? : List Char → List Char → Option (List Char)
  | [], s => some s
  | _ :: _, [] => none
  | p :: ps, c :: cs => if p = c then dropFront? ps cs else none

def startsWith (front s : List Char) : Bool := (dropFront? front s).isSome

/-- Cuts a text at a separator. `skip` characters of the last separator are still to be passed over, and
`piece` is the current piece, reversed. -/
def splitFrom (separator : List Char) : Nat → List Char → List Char → List (List Char)
  | _, piece, [] => [piece.reverse]
  | skip + 1, piece, _ :: rest => splitFrom separator skip piece rest
  | 0, piece, c :: rest =>
    if startsWith separator (c :: rest) then
      piece.reverse :: splitFrom separator (separator.length - 1) [] rest
    else splitFrom separator 0 (c :: piece) rest

/-- The pieces of a text between the occurrences of a separator that is not empty. -/
def splitOn (separator s : List Char) : List (List Char) := splitFrom separator 0 [] s

/-- Cuts a text at runs of blanks and drops empty pieces. -/
def splitBlankFrom (blank : Char → Bool) : List Char → List Char → List (List Char)
  | piece, [] => if piece.isEmpty then [] else [piece.reverse]
  | piece, c :: rest =>
    if blank c then
      if piece.isEmpty then splitBlankFrom blank [] rest else piece.reverse :: splitBlankFrom blank [] rest
    else splitBlankFrom blank (c :: piece) rest

def joinWith (separator : List Char) : List (List Char) → List Char
  | [] => []
  | [piece] => piece
  | piece :: pieces => piece ++ separator ++ joinWith separator pieces

/-- Puts a text before, between and after all characters of another. -/
def interleave (new : List Char) : List Char → List Char
  | [] => new
  | c :: rest => new ++ c :: interleave new rest

/-- Replaces every occurrence of `old`; an empty `old` occurs around every character. -/
def replaceAll (old new s : List Char) : List Char :=
  if old.isEmpty then interleave new s else joinWith new (splitOn old s)

/-- Drops leading and trailing characters of a class. -/
def trim (p : Char → Bool) (s : List Char) : List Char :=
  ((s.dropWhile p).reverse.dropWhile p).reverse

/-- An index that may count from the end, moved into the range from zero to the length. -/
def clampIndex (length : Nat) (i : Int) : Nat :=
  if i < 0 then (i + length).toNat else min i.toNat length

/-- The part of a text from one index to another; indices may count from the end. -/
def slice {α : Type} (s : List α) (start stop : Int) : List α :=
  let a := clampIndex s.length start
  let b := clampIndex s.length stop
  (s.take b).drop a

/-- The index of the first occurrence of a character at or after an index. -/
def indexFrom? (c : Char) (s : List Char) (start : Nat) : Option Nat :=
  ((s.drop start).findIdx? (· == c)).map (· + start)

/-- The index of the last occurrence of a character before an index. -/
def lastIndexBefore? (c : Char) (s : List Char) (stop : Nat) : Option Nat :=
  let front := s.take stop
  (front.reverse.findIdx? (· == c)).map (front.length - 1 - ·)

end Utterance.Text

/-!
# Places in source texts

A position is an index into a source text together with its line and column, all counted from zero in
characters. A position may lie beyond the end of its text, and before its start.
-/

namespace Utterance

/-- A source text and the name of the file that it came from. -/
structure Source where
  name : String
  text : String
deriving DecidableEq, Repr, Inhabited

structure Position where
  idx : Int
  ln : Int
  col : Int
  source : Source
deriving DecidableEq, Repr, Inhabited

namespace Position

def start (source : Source) : Position := ⟨0, 0, 0, source⟩

/-- The next position, after a character that is not a line end. -/
def next (p : Position) : Position := { p with idx := p.idx + 1, col := p.col + 1 }

def after (p : Position) (c : Char) : Position :=
  if c = '\n' then { p with idx := p.idx + 1, ln := p.ln + 1, col := 0 } else p.next

/-- The next position, after a character or the end of the text. -/
def advance (p : Position) : Option Char → Position
  | some c => p.after c
  | none => p.next

def afterAll (p : Position) (cs : List Char) : Position := cs.foldl after p

end Position

end Utterance

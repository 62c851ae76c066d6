import Utterance.Token.Basic

/-!
# Cursors

A cursor is a position together with the text that is still to be read. It may be moved past the end of the
text, where only the position changes.
-/

namespace Utterance

structure Cursor where
  pos : Position
  rest : List Char

namespace Cursor

def start (source : Source) : Cursor := ⟨Position.start source, source.text.toList⟩

def current? (cur : Cursor) : Option Char := cur.rest.head?

def next (cur : Cursor) : Cursor := ⟨cur.pos.advance cur.current?, cur.rest.tail⟩

def skip : Nat → Cursor → Cursor
  | 0, cur => cur
  | n + 1, cur => skip n cur.next

/-- The cursor after the text `raw`, where `rest` is left. -/
def passed (cur : Cursor) (raw rest : List Char) : Cursor := ⟨cur.pos.afterAll raw, rest⟩

/-- The longest piece of text whose characters all satisfy `p`, and the cursor after it. -/
def takeWhile (p : Char → Bool) (cur : Cursor) : List Char × Cursor :=
  let raw := cur.rest.takeWhile p
  (raw, cur.passed raw (cur.rest.dropWhile p))

def isSpace (c : Char) : Bool := c == ' ' || c == '\t'

/-- Whether a character can begin a word of the language. -/
def isLetter (c : Char) : Bool := c.isAlpha || c == '_'

/-- Whether a character can occur in a word of the language. -/
def isWordChar (c : Char) : Bool := c.isAlphanum || c == '_'

/-- The word of any script that comes next on the line, after blanks. -/
def nextWord (cur : Cursor) : List Char :=
  (cur.rest.dropWhile isSpace).takeWhile fun c => Text.isAlphanumeric c || c == '_'

/-- The character at a distance from the cursor, forwards or backwards. Before the start of the text it is
counted from its end, and before that there is none. -/
def charAt (cur : Cursor) (offset : Int) : Except Fault (Option Char) :=
  let text := cur.pos.source.text.toList
  let i := cur.pos.idx + offset
  let j := if i < 0 then i + text.length else i
  if j < 0 then .error .textIndex else .ok text[j.toNat]?

end Cursor

end Utterance

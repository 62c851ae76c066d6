import Utterance.Position
import Utterance.Text.Search

/-!
# Excerpts

An excerpt shows the lines of a source from one position to another, each followed by a line of arrows under the
columns in between. Every line but that of the first position begins with its line break, and tabs are left out.
-/

namespace Utterance.Excerpt

/-- Where the line starts that begins at or before an index: at the line break before the index, or at the start
of the text. A negative index counts from the end. -/
def lineStart (text : List Char) (idx : Int) : Nat :=
  (Text.lastIndexBefore? '\n' text (Text.clampIndex text.length idx)).getD 0

def lineEnd (text : List Char) (start : Nat) : Nat :=
  (Text.indexFrom? '\n' text (start + 1)).getD text.length

/-- A line of arrows under the columns from `first` to `last`, the latter excluded. -/
def marks (first last : Int) : List Char :=
  List.replicate first.toNat ' ' ++ List.replicate (last - first).toNat '↑'

/-- Shows `count` more lines, the next one starting at index `start`. `first` is the column where its arrows
start and `last` the one where those of the last line end. -/
def lines (text : List Char) (last : Int) : Nat → Nat → Int → List Char
  | 0, _, _ => []
  | count + 1, start, first =>
    let stop := lineEnd text start
    let line := (text.take stop).drop start
    let columnEnd : Int := if count = 0 then last else line.length - 1
    line ++ '\n' :: marks first columnEnd ++ lines text last count stop 0

/-- The excerpt of a text from one position to another. -/
def render (text : String) (start stop : Position) : String :=
  let cs := text.toList
  let count := (stop.ln - start.ln + 1).toNat
  String.ofList ((lines cs stop.col count (lineStart cs start.idx) start.col).filter (· != '\t'))

end Utterance.Excerpt

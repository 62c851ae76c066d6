import Utterance.Shell.Script

/-!
# The command line

Without arguments the command takes its input as what is typed into the shell; with a file name it runs the file.
Before that, it reads the files that the program may ask for: those whose names occur in its text.
-/

namespace Utterance.CommandLine

def isNameChar (c : Char) : Bool := c.isAlphanum || c == '_' || c == '.' || c == '/' || c == '-'

/-- The names that occur in a text, each also with the ending of modules. -/
def namesIn (text : String) : List String :=
  let words := (Text.splitBlankFrom (!isNameChar ·) [] text.toList).map String.ofList
  words ++ words.map (· ++ moduleSuffix)

/-- The names of a path that stays in the working directory. -/
def inside? (path : String) : Option (List String) :=
  let names := Path.simplify false [] (Path.names path)
  if Path.isAbsolute path || names.contains ".." then none else some names

/-- Reads files, and the files whose names occur in them. -/
partial def gather (found : Directory) : List String → IO Directory
  | [] => return found
  | path :: rest => do
    match inside? path with
    | none => gather found rest
    | some names =>
      if (found.lookup names).isSome then gather found rest
      else
        try
          let bytes := (← IO.FS.readBinFile path).toList
          let text := String.ofList ((Text.decodeUtf8 bytes).toOption.getD [])
          let beside := (namesIn text).map (Path.join (Path.parent path))
          gather ((names, bytes) :: found) (rest ++ namesIn text ++ beside)
        catch _ => gather found rest

/-- Reads everything that is typed in. -/
partial def readAll (stream : IO.FS.Stream) (before : String) : IO String := do
  let line ← stream.getLine
  if line.isEmpty then return before else readAll stream (before ++ line)

end Utterance.CommandLine

open Utterance

def main (args : List String) : IO UInt32 := do
  let input ← CommandLine.readAll (← IO.getStdin) ""
  let work ← CommandLine.gather [] (args.take 1 ++ CommandLine.namesIn input)
  let files := Library.filesFor (← IO.currentDir).toString work "/uttr"
  match (Shell.start args).run (Session.start files input) with
  | .ok _ w | .error .exit w =>
    IO.print w.out
    return 0
  | .error s w =>
    IO.print w.out
    match s with
    | .fault f => IO.eprintln f.message
    | .interrupt => IO.eprintln "interrupted"
    | _ => return 1
    return 1

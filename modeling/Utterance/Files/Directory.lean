import Utterance.Files.Path
import Utterance.Text.Quoted
import Utterance.Text.Utf8

/-!
# Files

A program sees two directories: the one it works in and that of the language, which holds the library. Nothing else
is known, so a path that leaves them leads nowhere. `Files.read` gives the text of a file, with one kind of line end.
-/

namespace Utterance

abbrev Directory := List (List String × List UInt8)

/-- What a program sees: the directory in which it works and that of the language, with their paths. -/
structure Files where
  workPath : String
  work : Directory
  homePath : String
  home : Directory

namespace Files

def libraryPath (files : Files) : String := Path.join files.homePath "stdlib"

/-- What is found at the end of a path. -/
inductive Target where
  | file (bytes : List UInt8)
  | directory
  | nothing
  /-- A file where a directory should be. -/
  | blocked
  | tooLong
deriving DecidableEq, Repr

def nameLimit : Nat := 255

def followIn (d : Directory) : List String → List String → Target
  | _, [] => .directory
  | here, n :: rest =>
    if n.isEmpty || n == "." then followIn d here rest
    else if n == ".." then
      match here.reverse with
      | [] => if rest.all fun n => n.isEmpty || n == "." || n == ".." then .directory else .nothing
      | _ :: above => followIn d above.reverse rest
    else if nameLimit < n.utf8ByteSize then .tooLong
    else
      let path := here ++ [n]
      match d.lookup path with
      | some bytes => if rest.isEmpty then .file bytes else .blocked
      | none => if d.any fun (p, _) => path.isPrefixOf p then followIn d path rest else .nothing

/-- The rest of a list after another one that it starts with. -/
def afterFront? : List String → List String → Option (List String)
  | [], ns => some ns
  | m :: ms, n :: ns => if m = n then afterFront? ms ns else none
  | _ :: _, [] => none

def findFromRoot (files : Files) (ns : List String) : Target :=
  let solid (path : String) : List String := (Path.names path).filter (!·.isEmpty)
  match afterFront? (solid files.workPath) ns, afterFront? (solid files.homePath) ns with
  | some rest, _ => followIn files.work [] rest
  | none, some rest => followIn files.home [] rest
  | none, none => if ns.all String.isEmpty then .directory else .nothing

def find (files : Files) (path : String) : Target :=
  if path.isEmpty then .nothing
  else if Path.isAbsolute path then
    -- A slash at the end asks for a directory.
    let ns := (Path.names path).filter (!·.isEmpty)
    findFromRoot files (if path.toList.getLast? == some '/' then ns ++ [""] else ns)
  else followIn files.work [] (Path.names path)

def isFile (files : Files) (path : String) : Bool :=
  match files.find path with
  | .file _ => !path.toList.contains '\x00'
  | _ => false

def isThere (files : Files) (path : String) : Bool :=
  match files.find path with
  | .file _ | .directory => !path.toList.contains '\x00'
  | _ => false

def read (files : Files) (path : String) : Except Fault String :=
  if path.toList.contains '\x00' then .error .nullInPath
  else
    match files.find path with
    | .file bytes => return String.ofList (Text.unifyLines (← Text.decodeUtf8 bytes))
    | .directory => .error (.isDirectory (Text.quoted path))
    | .nothing => .error (.noFile (Text.quoted path))
    | .blocked => .error (.notDirectory (Text.quoted path))
    | .tooLong => .error (.nameTooLong (Text.quoted path))

end Files

end Utterance

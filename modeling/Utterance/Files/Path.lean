import Utterance.Text.Search

/-!
# Paths

Paths are texts with slashes between names. `absolute` completes a path by a directory and removes all names that
mean "here" or "above".
-/

namespace Utterance.Path

def names (path : String) : List String := (Text.splitOn ['/'] path.toList).map String.ofList

def ofNames (ns : List String) : String := "/".intercalate ns

def isAbsolute (path : String) : Bool := path.toList.head? == some '/'

def join (directory path : String) : String :=
  if isAbsolute path then path
  else if directory.isEmpty || directory.toList.getLast? == some '/' then directory ++ path
  else directory ++ "/" ++ path

/-- The slashes that a path starts with and keeps: none, one, or exactly two. -/
def leadingSlashes (path : String) : Nat :=
  match (path.toList.takeWhile (· == '/')).length with
  | 0 => 0
  | 2 => 2
  | _ => 1

/-- Removes names that mean "here", and "above" together with the name before it. `found` are the names so far,
reversed. -/
def simplify (rooted : Bool) : List String → List String → List String
  | found, [] => found.reverse
  | found, n :: rest =>
    if n.isEmpty || n == "." then simplify rooted found rest
    else if n != ".." then simplify rooted (n :: found) rest
    else
      match found with
      | [] => if rooted then simplify rooted [] rest else simplify rooted [n] rest
      | last :: before => if last == ".." then simplify rooted (n :: found) rest else simplify rooted before rest

def normalize (path : String) : String :=
  let slashes := leadingSlashes path
  let result := String.ofList (List.replicate slashes '/') ++ ofNames (simplify (slashes != 0) [] (names path))
  if result.isEmpty then "." else result

def absolute (directory path : String) : String := normalize (join directory path)

/-- The directory of a path: everything before the last name. -/
def parent (path : String) : String :=
  let head := (path.toList.reverse.dropWhile (· != '/')).reverse
  String.ofList (if head.all (· == '/') then head else (head.reverse.dropWhile (· == '/')).reverse)

end Utterance.Path

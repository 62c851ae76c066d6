import Utterance.Files.Directory

/-!
# Finding and remembering modules

A module is a file. It is looked for beside the file that asks for it, then in the directory where the program works,
then in the library. A loader remembers the modules that were loaded, by their paths, and the paths of those that are
being loaded, in the order in which they were begun.
-/

namespace Utterance

def moduleSuffix : String := ".uttr"

/-- The directories to look in for a module, for a file that asks for it. -/
def searchPaths (files : Files) (asking : Option String) : List String :=
  let beside :=
    match asking with
    | some file => if file.isEmpty then [] else [Path.parent (Path.absolute files.workPath file)]
    | none => []
  beside ++ [files.workPath, files.libraryPath]

def candidates (files : Files) (name : String) (asking : Option String) : List String :=
  (searchPaths files asking).map (Path.join · (name ++ moduleSuffix))

/-- The path of a module: the first candidate that is a file. -/
def findModule? (files : Files) (name : String) (asking : Option String) : Option String :=
  ((candidates files name asking).find? files.isFile).map (Path.absolute files.workPath)

def missingModule (name : String) : String := "Module '" ++ name ++ "' not found"

def moduleText (files : Files) (path : String) : Except String String :=
  (files.read path).mapError fun f => "Failed to read module file: " ++ f.message

/-- Modules that were loaded or are being loaded. -/
structure Loader (μ : Type) where
  cache : List (String × μ)
  loading : List String
deriving Inhabited

namespace Loader

variable {μ : Type}

def empty : Loader μ := ⟨[], []⟩

section

variable (l : Loader μ)

def isLoading (path : String) : Bool := l.loading.contains path

def beginLoading (path : String) : Loader μ := { l with loading := l.loading ++ [path] }

def endLoading (path : String) : Loader μ := { l with loading := l.loading.erase path }

def get? (path : String) : Option μ := l.cache.lookup path

def isCached (path : String) : Bool := (l.get? path).isSome

/-- Remembers a module, in the place of an earlier one of the same path. -/
def remember (path : String) (m : μ) : Loader μ :=
  { l with cache := (path, m) :: l.cache.filter (·.1 != path) }

end

end Loader

end Utterance

import Utterance.Eval.Program

/-!
# Bringing modules in and sharing names

A module is run once, in a scope of its own inside the global one, and remembered. While it runs, its path is in the
list of those being loaded, and a module that comes to itself again is refused. Whatever goes wrong in a module is an
error of the program that brings it in.
-/

namespace Utterance.Eval

def loader : Eval (Loader LoadedModule) := return (← get).loader

def modifyLoader (f : Loader LoadedModule → Loader LoadedModule) : Eval Unit :=
  modify fun w => { w with loader := f w.loader }

/-- The name that a whole program has where no file is meant. -/
def programName : String := "<program>"

/-- The file that asks for a module: the name of the innermost level. -/
def askingFile (frame : Frame) : Option String :=
  match frame.levels with
  | level :: _ => if level.name = programName then none else some level.name
  | [] => none

/-- Runs the text of a module; what goes wrong with it is given as a report. -/
def runModule (ev : Evaluator) (name path text : String) : Eval (Except String LoadedModule) := do
  match ← prepare ⟨path, text⟩ with
  | .error d =>
    modifyLoader (·.endLoading path)
    return .error ("Error in module '" ++ name ++ "': " ++ (← lift d.render))
  | .ok tree =>
    let scope ← newScope
    let ending ← runTree ev tree ⟨[⟨path, none⟩], [scope, Store.globalScope]⟩
    modifyLoader (·.endLoading path)
    match ending with
    | .error d =>
      record (.failed name)
      return .error ("Error executing module '" ++ name ++ "': " ++ (← lift d.render))
    | .ok _ =>
      let m : LoadedModule := ⟨scope, [Store.globalScope]⟩
      modifyLoader (·.remember path m)
      record (.completed path)
      return .ok m

def loadModule (ev : Evaluator) (span : Span) (name path : String) (frame : Frame) : Eval LoadedModule := do
  let l ← loader
  if l.isLoading path then
    throw (.error ⟨.circularImport (l.loading ++ [path]), some span.start, some span.stop,
      "Circular import detected involving '" ++ name ++ "'"⟩)
  else
    match moduleText (← get).files path with
    | .error report => errorAt span report frame
    | .ok text =>
      record (.begun ⟨path, text⟩ l)
      modifyLoader (·.beginLoading path)
      let result ← tryCatch (runModule ev name path text) fun
        | .fault f => do
          modifyLoader (·.endLoading path)
          record (.failed name)
          return .error ("Unexpected error loading module '" ++ name ++ "': " ++ f.message)
        | s => throw s
      match result with
      | .error report => errorAt span report frame
      | .ok m => return m

def findModule (ev : Evaluator) (span : Span) (name : String) (frame : Frame) : Eval LoadedModule := do
  let w ← get
  match findModule? w.files name (askingFile frame) with
  | none =>
    throw (.error ⟨.moduleNotFound (candidates w.files name (askingFile frame)), some span.start, some span.stop,
      missingModule name⟩)
  | some path =>
    match (← loader).get? path with
    | some m => return m
    | none => loadModule ev span name path frame

def exportsOf (m : LoadedModule) : Eval (List Entry) := do
  let s ← store
  return (s.scope m.scope).exported (m.outer.map s.scope)

def bindShared (frame : Frame) (name : String) (value : Option Binding) : Eval Unit :=
  match value with
  | some b => bind frame name b
  | none => return ()

/-- Binds some of the names that a module shares, one after the other. -/
def bindItems (name : String) (frame : Frame) (shared : List Entry) : List Item → Eval Unit
  | [] => return ()
  | (item, rename) :: rest => do
    match shared.lookup item.text with
    | none =>
      errorAt (Node.spanOf item) ("Module '" ++ name ++ "' does not export '" ++ item.text ++ "'") frame
    | some value =>
      bindShared frame (rename.getD item).text value
      bindItems name frame shared rest

/-- Binds all names that a module shares, or some of them. -/
def bindBrought (name : String) (frame : Frame) (shared : List Entry) : Option (List Item) → Eval Unit
  | none => shared.forM fun (name, value) => bindShared frame name value
  | some items => bindItems name frame shared items

/-- Brings in all names that a module shares, or some of them. -/
def bring (ev : Evaluator) (span : Span) (path : Token) (items : Option (List Item))
    (frame : Frame) : Eval Ref := do
  record (.brought path.text)
  let m ← findModule ev span path.text frame
  let shared ← exportsOf m
  bindBrought path.text frame shared items
  return Store.null

def shareNames (frame : Frame) (scope : Nat) : List Token → Eval Unit
  | [] => return ()
  | t :: rest => do
    match ← lookup frame t.text with
    | none => errorAt (Node.spanOf t) ("Cannot share undefined symbol '" ++ t.text ++ "'") frame
    | some _ =>
      modifyScope scope (·.addExport t.text)
      record (.shared scope t.text)
      shareNames frame scope rest

def share (names : List Token) (frame : Frame) : Eval Ref := do
  match frame.scopes with
  | [] => return Store.null
  | scope :: _ =>
    modifyScope scope (·.beginSharing)
    record (.sharing scope)
    shareNames frame scope names
    return Store.null

end Utterance.Eval

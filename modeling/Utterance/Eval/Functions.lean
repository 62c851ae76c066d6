import Utterance.Eval.Builtin.Collections
import Utterance.Eval.Builtin.Patterns
import Utterance.Eval.Builtin.Sets
import Utterance.Eval.Builtin.Streams
import Utterance.Eval.Builtin.Texts

/-!
# Calls

A call runs a function in a new scope inside the scopes where the function was last seen. The arguments are bound
there, and each of them is from then on seen in the frame of the call.
-/

namespace Utterance.Eval

/-- What a built-in function does with its arguments. -/
def builtin (ev : Evaluator) (c : Call) : Builtin → List Ref → Eval Ref
  | .display, [r] => Call.display r
  | .input, [] => Call.input
  | .inputInt, [] => Call.inputInt
  | .len, [r] => c.len r
  | .append, [r, v] => c.append r v
  | .pop, [r, i] => c.pop r i
  | .extend, [a, b] => c.extend a b
  | .keys, [r] => c.keys r
  | .values, [r] => c.values r
  | .hasKey, [r, k] => c.hasKey r k
  | .remove, [r, k] => c.remove r k
  | .run, [r] => Call.run ev c r
  | .help, [] => Call.help
  | .exit, [] => Call.exit
  | .errorMessage, [r] => c.errorMessage r
  | .errorType, [r] => c.errorType r
  | .split, [r, d] => c.split r d
  | .join, [r, s] => c.join r s
  | .upper, [r] => c.upper r
  | .lower, [r] => c.lower r
  | .replace, [r, o, n] => c.replace r o n
  | .substring, [r, i, j] => c.substring r i j
  | .tuple, [r] => Call.toTuple r
  | .list, [r] => Call.toList r
  | .regexMatch, [p, r] => c.regexMatch p r
  | .regexSearch, [p, r] => c.regexSearch p r
  | .regexReplace, [p, n, r] => c.regexReplace p n r
  | .regexFindAll, [p, r] => c.regexFindAll p r
  | .regexSplit, [p, r] => c.regexSplit p r
  | .union, [a, b] => Call.combine Members.union c a b
  | .intersection, [a, b] => Call.combine Members.intersection c a b
  | .difference, [a, b] => Call.combine Members.difference c a b
  | .symmetricDifference, [a, b] => Call.combine Members.symmetricDifference c a b
  | .add, [r, e] => c.add r e
  | .contains, [r, e] => c.contains r e
  | .isSubset, [a, b] => Call.compareSets Members.isSubset c a b
  | .isSuperset, [a, b] => Call.compareSets (fun x y => Members.isSubset y x) c a b
  | .setFromList, [r] => c.setFromList r
  | _, _ => return Store.null

/-- The frame of a call: a level and a scope inside the frame where the function was last seen. -/
def enter (callee : Cell) (name : String) : Eval Frame := do
  match callee.frame with
  | none => noProperty "NoneType" "symbol_table"
  | some outer =>
    let scope ← newScope
    return ⟨⟨name, callee.start⟩ :: outer.levels, scope :: outer.scopes⟩

def bindArgs (frame : Frame) : List String → List Ref → Eval Unit
  | name :: names, r :: rs => do
    let r ← frameIn r frame
    bind frame name (.value r)
    bindArgs frame names rs
  | _, _ => return ()

def checkArgs (f : Ref) (callee : Cell) (params : List String) (args : List Ref) : Eval Unit := do
  let refuse (count : Nat) (what : String) : Eval Unit := do
    error callee.start callee.stop (toString count ++ " too " ++ what ++ " args passed into " ++ (← shown f))
      callee.levels
  if params.length < args.length then refuse (args.length - params.length) "many"
  else if args.length < params.length then refuse (params.length - args.length) "few"
  else return ()

/-- Enters a call: makes its frame and binds its arguments. -/
def enterWith (f : Ref) (callee : Cell) (b : Option Builtin) (name : String) (params : List String)
    (args : List Ref) : Eval Frame := do
  let frame ← enter callee name
  checkArgs f callee params args
  bindArgs frame params args
  record (.called b frame args)
  return frame

/-- Runs the body of a function, which ends where it gives a value. -/
def runBody (ev : Evaluator) (body : Node) (frame : Frame) : Eval Ref :=
  tryCatch (ev body frame) fun
    | .give r => return r
    | s => throw s

def call (ev : Evaluator) (f : Ref) (args : List Ref) : Eval Ref := do
  let callee ← cell f
  match callee.payload with
  | .function name params body => runBody ev body (← enterWith f callee none name params args)
  | .builtin b =>
    let frame ← enterWith f callee (some b) b.name b.params args
    builtin ev ⟨callee.start, callee.stop, frame⟩ b args
  | _ => illegal callee callee

end Utterance.Eval

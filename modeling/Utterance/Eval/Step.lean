import Utterance.Eval.Functions
import Utterance.Eval.Import

/-!
# Evaluation

`step` evaluates a node, given something that evaluates its parts and the bodies of functions.
-/

namespace Utterance.Eval

def regexLiteral (span : Span) (tok : Token) (frame : Frame) : Eval Ref :=
  match Pattern.compile tok.text with
  | .ok compiled => make (.regex tok.text compiled) span frame
  | .error (.invalid report) => errorAt span ("Invalid regex pattern: " ++ report) frame
  | .error (.fault f) => fault f

/-- The value of a name. Lists, dictionaries and functions are seen anew where the name stands, all other values are
copied; functions stay in the frame where they were defined. -/
def named (span : Span) (name : String) (frame : Frame) : Eval Ref := do
  match ← lookup frame name with
  | none => errorAt span ("'" ++ name ++ "' is not defined") frame
  | some (.member _) => noProperty "tuple" "copy"
  | some (.value r) =>
    match ← payload r with
    | .function .. => place r span
    | .list _ | .dict _ | .builtin _ =>
      let r ← place r span
      frameIn r frame
    | _ =>
      let r ← copy r
      let r ← place r span
      frameIn r frame

section

variable (ev : Evaluator) (frame : Frame)

/-- Evaluates pairs one after the other into a table. -/
def entries : Table → List (Node × Node) → Eval Table
  | t, [] => return t
  | t, (k, v) :: rest => do
    let key ← ev k frame
    let value ← ev v frame
    match ← payload key with
    | .number s | .string s => entries (t.set s value) rest
    | _ => errorAt k.span "Dictionary key must be a string or number" frame

/-- Evaluates the body of a case; a block has the value of nothing. -/
def caseBody (body : Node) (isBlock : Bool) : Eval Ref := do
  let r ← ev body frame
  return if isBlock then Store.null else r

def otherwise : Option (Node × Bool) → Eval Ref
  | some (body, isBlock) => caseBody ev frame body isBlock
  | none => return Store.null

/-- Evaluates the first case whose condition is true. -/
def conditional (rest : Option (Node × Bool)) : List Case → Eval Ref
  | [] => otherwise ev frame rest
  | (condition, body, isBlock) :: cases => do
    let c ← ev condition frame
    if ← isTrue c then caseBody ev frame body isBlock else conditional rest cases

/-- Evaluates the first case whose value equals the subject. -/
def switch (subject : Ref) (rest : Option (Node × Bool)) : List Case → Eval Ref
  | [] => otherwise ev frame rest
  | (value, body, isBlock) :: cases => do
    let v ← ev value frame
    match ← equality? subject v with
    | none => noProperty "NoneType" "is_true"
    | some t => if ← isTrue t then caseBody ev frame body isBlock else switch subject rest cases

/-- Runs the body of a loop; says whether the loop goes on. -/
def loopBody (body : Node) : Eval Bool :=
  tryCatch (do let _ ← ev body frame; return true) fun
    | .cut => return false
    | .skip => return true
    | s => throw s

/-- Repeats rounds as long as they ask for another one. -/
def rounds (round : Eval Bool) : Eval Unit :=
  iterate (fun _ => return if ← round then .inl () else .inr ()) ()

section

variable (name : String)

/-- One round of a counting loop: the next count, or nothing if the loop ends. -/
def countRound (last : Ref) (stride : Scalar) (body : Node) (i : Scalar) : Eval (Scalar ⊕ Unit) := do
  if ← lift (Scalar.ordered .lt i (← scalar last)) then
    let r ← fresh (.number i)
    bind frame name (.value r)
    let next ← lift (Scalar.addAs "+=" i stride)
    return if ← loopBody ev frame body then .inl next else .inr ()
  else return .inr ()

def count (last : Ref) (stride : Scalar) (body : Node) (first : Scalar) : Eval Unit :=
  iterate (countRound ev frame name last stride body) first

/-- The stride of a counting loop; one if none is given. -/
def strideOf : Option Node → Eval Scalar
  | some node => do scalar (← ev node frame)
  | none => return .int 1

/-- The element of a list or tuple at a place, as it is now. -/
def elementAt? (r : Ref) (i : Nat) : Eval (Option Ref) := do
  match ← payload r with
  | .list es => return es[i]?
  | .tuple es => return es[i]?
  | _ => return none

/-- One round of a loop through elements, at a place: the next place, or nothing if the loop ends. -/
def eachRound (items : Ref) (body : Node) (i : Nat) : Eval (Nat ⊕ Unit) := do
  match ← elementAt? items i with
  | none => return .inr ()
  | some r =>
    bind frame name (.value r)
    return if ← loopBody ev frame body then .inl (i + 1) else .inr ()

/-- Runs through the elements of a list or tuple; what is added on the way is also reached. -/
def each (items : Ref) (body : Node) : Eval Unit :=
  iterate (eachRound ev frame name items body) 0

/-- What a comprehension binds its variable to at a place of what it runs through. -/
def itemAt? (items : Ref) (i : Nat) : Eval (Option Binding) := do
  match ← payload items with
  | .list es => return es[i]?.map .value
  | .tuple es => return es[i]?.map .value
  | .set ms => return ms[i]?.map .member
  | _ => return none

/-- Whether all conditions hold; those after the first one that does not are not evaluated. -/
def allTrue : List Node → Eval Bool
  | [] => return true
  | c :: rest => do
    let r ← ev c frame
    if ← isTrue r then allTrue rest else return false

/-- What something finds if a condition holds, else nothing. -/
def foundIf (condition : Eval Bool) (rest : Eval (Array Ref)) : Eval (Array Ref) := do
  if ← condition then rest else return #[]

/-- One item of what a comprehension runs through, with what was found before it. -/
def collectRound (conditions : List Node) (items : Ref)
    (rest : Eval (Array Ref)) (state : Nat × Array Ref) : Eval ((Nat × Array Ref) ⊕ Array Ref) := do
  let (i, found) := state
  match ← itemAt? items i with
  | none => return .inr found
  | some b =>
    bind frame name b
    let more ← foundIf (allTrue ev frame conditions) rest
    return .inl (i + 1, found ++ more)

/-- Runs through items and collects what the rest of the comprehension makes of each that meets the conditions. -/
def collect (conditions : List Node) (items : Ref) (rest : Eval (Array Ref)) : Eval (Array Ref) :=
  iterate (collectRound ev frame name conditions items rest) (0, #[])

end

def comprehension (expression : Node) : List Clause → Eval (Array Ref)
  | [] => return #[← ev expression frame]
  | (name, iterable, conditions) :: clauses => do
    let items ← ev iterable frame
    match ← payload items with
    | .list _ | .tuple _ | .set _ =>
      collect ev frame name.text conditions items (comprehension expression clauses)
    | p => errorAt iterable.span ("Cannot iterate over " ++ p.typeName) frame

def bindName (name : Option Token) (r : Ref) : Eval Unit :=
  match name with
  | some t => bind frame t.text (.value r)
  | none => return ()

/-- The value that a function gives back; nothing if none is given. -/
def givenBy : Option Node → Eval Ref
  | some node => ev node frame
  | none => return Store.null

end

def index (collection key : Node) (c k : Ref) (frame : Frame) : Eval Ref := do
  let left ← cell c
  let right ← cell k
  match left.payload, right.payload with
  | .list es, .number i =>
    match scalarIndex? es.size i with
    | some n => return es.getD n 0
    | none => errorAt key.span "Index out of bounds" frame
  | .list _, _ => errorAt key.span "List index must be a number" frame
  | .dict n, _ => entry left right n
  | _, _ => errorAt collection.span "Can only index lists and dictionaries" frame

/-- Runs a body; if it ends with an error, runs the handler, with the error bound to a name. -/
def attempt (ev : Evaluator) (span : Span) (body handler : Node) (name : Option Token) (frame : Frame) : Eval Ref :=
  tryCatch (ev body frame) fun
    | .error d => do
      let r ← make (.error d.details d.title) span frame
      bindName frame name r
      ev handler frame
    | s => throw s

def application (ev : Evaluator) (span : Span) (callee : Node) (args : List Node) (frame : Frame) : Eval Ref := do
  let f ← ev callee frame
  let f ← copy f
  let f ← place f span
  let rs ← args.mapM (ev · frame)
  let result ← call ev f rs
  let result ← copy result
  let result ← place result span
  frameIn result frame

def unary (op : Token) (r : Ref) : Eval Ref :=
  match op.kind with
  | .minus => negate r
  | _ => if op.isKeyword "not" then negation r else return r

def define (span : Span) (name : String) (params : List Token) (body : Node) (frame : Frame) : Eval Ref :=
  make (.function name (params.map Token.text) body) span frame

def step (ev : Evaluator) (node : Node) (frame : Frame) : Eval Ref := do
  match node with
  | .number span tok => make (.number tok.value) span frame
  | .string span tok => make (.string tok.value) span frame
  | .regex span tok => regexLiteral span tok frame
  | .list span elements => make (.list (← elements.mapM (ev · frame)).toArray) span frame
  | .comprehension span expression clauses =>
    let scope ← newScope
    let inner : Frame := { frame with scopes := scope :: frame.scopes }
    make (.list (← comprehension ev inner expression clauses)) span frame
  | .tuple span elements => make (.tuple (← elements.mapM (ev · frame))) span frame
  | .set span elements =>
    let rs ← elements.mapM (ev · frame)
    make (.set (← ofPrinting ((← store).membersOf rs))) span frame
  | .dict span pairs =>
    let n ← newTable (← entries ev frame [] pairs)
    make (.dict n) span frame
  | .named span name => named span name.text frame
  | .assign _ name value | .constant _ name value =>
    let r ← ev value frame
    bind frame name.text (.value r)
    return r
  | .binary span left op right =>
    let l ← ev left frame
    let r ← ev right frame
    match Operator.ofToken? op with
    | some o => place (← binary o l r) span
    | none => return Store.null
  | .unary span op operand =>
    let r ← ev operand frame
    place (← unary op r) span
  | .apply span callee args => application ev span callee args frame
  | .index _ collection key =>
    let c ← ev collection frame
    let k ← ev key frame
    index collection key c k frame
  | .conditional _ cases rest => conditional ev frame rest cases
  | .switch _ subject cases rest =>
    let s ← ev subject frame
    switch ev frame s rest cases
  | .count _ name first last stride body =>
    let a ← ev first frame
    let b ← ev last frame
    let s ← strideOf ev frame stride
    count ev frame name.text b s body (← scalar a)
    return Store.null
  | .each _ name items body =>
    let r ← ev items frame
    match ← payload r with
    | .list _ | .tuple _ =>
      each ev frame name.text r body
      return Store.null
    | _ => errorAt items.span "Can only iterate through lists and tuples" frame
  | .loop _ condition body =>
    let round : Eval Bool := do
      let c ← ev condition frame
      if ← isTrue c then loopBody ev frame body else return false
    rounds round
    return Store.null
  | .repetition _ body condition =>
    let round : Eval Bool := do
      if ← loopBody ev frame body then isTrue (← ev condition frame) else return false
    rounds round
    return Store.null
  | .function span name params body =>
    let r ← define span ((name.map Token.text).getD "<anonymous>") params body frame
    bindName frame name r
    return r
  | .lambda span params body => define span "<lambda>" params body frame
  | .give _ value =>
    let r ← givenBy ev frame value
    throw (.give r)
  | .cut _ => throw .cut
  | .skip _ => throw .skip
  | .attempt span body handler name => attempt ev span body handler name frame
  | .bring span path items => bring ev span path items frame
  | .share _ names => share names frame

end Utterance.Eval

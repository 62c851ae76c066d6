import Utterance.Eval.Step

/-!
# How evaluation is put together

`step` is put together from the evaluation of parts and from computations that evaluate nothing (`Assembled`). What is
kept by the ways of putting them together is therefore kept by every step (`assembled_step`). `Assembled` also says
where loop control stands: a part whose loop control has to stay in its place is asked to have it there.
-/

namespace Utterance

namespace Node

mutual

/-- Whether each `cut` and `skip` stands in a loop of the same function; `inLoop` says that the node stands in one. -/
def contained : Node → Bool → Bool
  | .cut _, inLoop | .skip _, inLoop => inLoop
  | .list _ elements, inLoop | .tuple _ elements, inLoop | .set _ elements, inLoop => allContained elements inLoop
  | .comprehension _ expression clauses, inLoop => clausesContained clauses inLoop && contained expression inLoop
  | .dict _ pairs, inLoop => pairsContained pairs inLoop
  | .assign _ _ value, inLoop | .constant _ _ value, inLoop => contained value inLoop
  | .binary _ left _ right, inLoop => contained left inLoop && contained right inLoop
  | .unary _ _ operand, inLoop => contained operand inLoop
  | .apply _ callee args, inLoop => contained callee inLoop && allContained args inLoop
  | .index _ collection key, inLoop => contained collection inLoop && contained key inLoop
  | .conditional _ cases rest, inLoop => casesContained cases inLoop && restContained rest inLoop
  | .switch _ subject cases rest, inLoop =>
    contained subject inLoop && (casesContained cases inLoop && restContained rest inLoop)
  | .count _ _ first last step body, inLoop =>
    contained first inLoop && (contained last inLoop && (partContained step inLoop && contained body true))
  | .each _ _ items body, inLoop => contained items inLoop && contained body true
  | .loop _ condition body, inLoop => contained condition inLoop && contained body true
  | .repetition _ body condition, inLoop => contained body true && contained condition inLoop
  | .function _ _ _ body, _ | .lambda _ _ body, _ => contained body false
  | .give _ value, inLoop => partContained value inLoop
  | .attempt _ body handler _, inLoop => contained body inLoop && contained handler inLoop
  | .number _ _, _ | .string _ _, _ | .regex _ _, _ | .named _ _, _ | .bring _ _ _, _ | .share _ _, _ => true

def allContained : List Node → Bool → Bool
  | [], _ => true
  | node :: nodes, inLoop => contained node inLoop && allContained nodes inLoop

def partContained : Option Node → Bool → Bool
  | none, _ => true
  | some node, inLoop => contained node inLoop

def pairsContained : List (Node × Node) → Bool → Bool
  | [], _ => true
  | (key, value) :: pairs, inLoop => contained key inLoop && (contained value inLoop && pairsContained pairs inLoop)

def casesContained : List Case → Bool → Bool
  | [], _ => true
  | (condition, body, _) :: cases, inLoop =>
    contained condition inLoop && (contained body inLoop && casesContained cases inLoop)

def restContained : Option (Node × Bool) → Bool → Bool
  | none, _ => true
  | some (body, _), inLoop => contained body inLoop

def clausesContained : List Clause → Bool → Bool
  | [], _ => true
  | (_, items, conditions) :: clauses, inLoop =>
    contained items inLoop && (allContained conditions inLoop && clausesContained clauses inLoop)

end

end Node

/-- Whether loop control stays in the body of a function; other values have none. -/
def Payload.contained : Payload → Bool
  | .function _ _ body => body.contained false
  | _ => true

def Asks (S : Prop) (check : Bool) : Prop := S → check = true

namespace Asks

variable {S : Prop} {x y : Bool}

theorem left (h : Asks S (x && y)) : Asks S x := fun hs => (Bool.and_eq_true_iff.1 (h hs)).1

theorem right (h : Asks S (x && y)) : Asks S y := fun hs => (Bool.and_eq_true_iff.1 (h hs)).2

end Asks

namespace Eval

/-- Computations that evaluate nothing and bind nothing. -/
inductive Primitive : {α : Type} → Eval α → Prop
  | pure {α} (a : α) : Primitive (Pure.pure a)
  | fault {α} (f : Fault) : Primitive (fault f : Eval α)
  | lift {α} (x : Except Fault α) : Primitive (lift x)
  | ofPrinting {α} (x : Printing α) : Primitive (ofPrinting x)
  | store : Primitive store
  | payload (r : Ref) : Primitive (payload r)
  | elementAt (r : Ref) (i : Nat) : Primitive (elementAt? r i)
  | itemAt (r : Ref) (i : Nat) : Primitive (itemAt? r i)
  | isTrue (r : Ref) : Primitive (isTrue r)
  | scalar (r : Ref) : Primitive (scalar r)
  | equality (l r : Ref) : Primitive (equality? l r)
  | binary (o : Operator) (l r : Ref) : Primitive (binary o l r)
  | unary (op : Token) (r : Ref) : Primitive (unary op r)
  | newTable (t : Table) : Primitive (newTable t)
  | number (i : Scalar) : Primitive (fresh (.number i))

/-- A computation in a frame is put together from the evaluation of parts and from what needs no evaluator. If `S`
holds, loop control has to be in its place; `b` says that the computation stands in a loop. -/
inductive Assembled (S : Prop) (b : Bool) : Frame → {α : Type} → (Evaluator → Eval α) → Prop
  | part {frame node} : Asks S (node.contained b) → Assembled S b frame fun ev => ev node frame
  | primitive {frame α} {x : Eval α} : Primitive x → Assembled S b frame fun _ => x
  | bind {frame α β} {x : Evaluator → Eval α} {f : Evaluator → α → Eval β} : Assembled S b frame x →
    (∀ a, Assembled S b frame fun ev => f ev a) → Assembled S b frame fun ev => x ev >>= f ev
  | ite {frame α} {c : Prop} {_ : Decidable c} {x y : Evaluator → Eval α} : Assembled S b frame x →
    Assembled S b frame y → Assembled S b frame fun ev => if c then x ev else y ev
  | iterate {frame σ α} {step : Evaluator → σ → Eval (σ ⊕ α)} (s : σ) : (∀ s, Assembled S b frame fun ev => step ev s) →
    Assembled S b frame fun ev => iterate (step ev) s
  | loopBody {frame body} : Asks S (body.contained true) → Assembled S b frame fun ev => loopBody ev frame body
  | attempt {frame body handler} (span : Span) (name : Option Token) : Asks S (body.contained b) →
    Asks S (handler.contained b) → Assembled S b frame fun ev => attempt ev span body handler name frame
  | application {frame callee args} (span : Span) : Asks S (callee.contained b) → Asks S (Node.allContained args b) →
    Assembled S b frame fun ev => application ev span callee args frame
  /-- Code in a new scope, and a list of what it finds. -/
  | collected {frame} {x : Evaluator → Frame → Eval (Array Ref)} (span : Span) :
    (∀ n, Assembled S b { frame with scopes := n :: frame.scopes } fun ev =>
      x ev { frame with scopes := n :: frame.scopes }) →
    Assembled S b frame fun ev => do
      let scope ← newScope
      make (.list (← x ev { frame with scopes := scope :: frame.scopes })) span frame
  | make {frame p} (span : Span) : Asks S p.contained → Assembled S b frame fun _ => make p span frame
  | place {frame} (r : Ref) (span : Span) : Assembled S b frame fun _ => place r span
  | bound {frame} (name : String) (v : Binding) : Assembled S b frame fun _ => Eval.bind frame name v
  | named {frame} (span : Span) (name : String) : Assembled S b frame fun _ => named span name frame
  | index {frame} (collection key : Node) (c k : Ref) : Assembled S b frame fun _ => index collection key c k frame
  | bring {frame} (span : Span) (path : Token) (items : Option (List Item)) :
    Assembled S b frame fun ev => bring ev span path items frame
  | share {frame} (names : List Token) : Assembled S b frame fun _ => share names frame
  | errorAt {frame α} (span : Span) (details : String) :
    Assembled S b frame fun _ => (errorAt span details frame : Eval α)
  | give {frame} (r : Ref) : Assembled S b frame fun _ => (throw (.give r) : Eval Ref)
  | cut {frame} : Asks S b → Assembled S b frame fun _ => (throw .cut : Eval Ref)
  | skip {frame} : Asks S b → Assembled S b frame fun _ => (throw .skip : Eval Ref)

variable {S : Prop} {b : Bool} {frame : Frame}

theorem assembled_pure {α : Type} (a : α) : Assembled S b frame fun _ => pure a := .primitive (.pure a)

theorem assembled_all {nodes : List Node} (hn : Asks S (Node.allContained nodes b)) :
    Assembled S b frame fun ev => nodes.mapM (ev · frame) := by
  induction nodes with
  | nil => exact assembled_pure []
  | cons node nodes ih =>
    simp only [List.mapM_cons]
    exact .bind (.part hn.left) fun _ => .bind (ih hn.right) fun _ => assembled_pure _

theorem assembled_entries {pairs : List (Node × Node)} (hn : Asks S (Node.pairsContained pairs b)) (t : Table) :
    Assembled S b frame fun ev => entries ev frame t pairs := by
  induction pairs generalizing t with
  | nil => exact assembled_pure t
  | cons pair pairs ih =>
    refine .bind (.part hn.left) fun key => .bind (.part hn.right.left) fun value =>
      .bind (.primitive (.payload key)) fun p => ?_
    cases p with
    | number | string => exact ih hn.right.right _
    | _ => exact .errorAt _ _

theorem assembled_caseBody {body : Node} (hn : Asks S (body.contained b)) (isBlock : Bool) :
    Assembled S b frame fun ev => caseBody ev frame body isBlock :=
  .bind (.part hn) fun _ => assembled_pure _

theorem assembled_otherwise {rest : Option (Node × Bool)} (hn : Asks S (Node.restContained rest b)) :
    Assembled S b frame fun ev => otherwise ev frame rest := by
  cases rest with
  | none => exact assembled_pure _
  | some rest => exact assembled_caseBody hn rest.2

theorem assembled_conditional {rest : Option (Node × Bool)} (hr : Asks S (Node.restContained rest b))
    {cases : List Case} (hn : Asks S (Node.casesContained cases b)) :
    Assembled S b frame fun ev => conditional ev frame rest cases := by
  induction cases with
  | nil => exact assembled_otherwise hr
  | cons c cases ih =>
    exact .bind (.part hn.left) fun _ => .bind (.primitive (.isTrue _)) fun _ =>
      .ite (assembled_caseBody hn.right.left _) (ih hn.right.right)

theorem assembled_switch (subject : Ref) {rest : Option (Node × Bool)} (hr : Asks S (Node.restContained rest b))
    {cases : List Case} (hn : Asks S (Node.casesContained cases b)) :
    Assembled S b frame fun ev => switch ev frame subject rest cases := by
  induction cases with
  | nil => exact assembled_otherwise hr
  | cons c cases ih =>
    refine .bind (.part hn.left) fun _ => .bind (.primitive (.equality _ _)) fun t => ?_
    cases t with
    | none => exact .primitive (.fault _)
    | some t =>
      exact .bind (.primitive (.isTrue t)) fun _ => .ite (assembled_caseBody hn.right.left _) (ih hn.right.right)

theorem assembled_rounds {round : Evaluator → Eval Bool} (h : Assembled S b frame round) :
    Assembled S b frame fun ev => rounds (round ev) :=
  .iterate () fun _ => .bind h fun _ => assembled_pure _

theorem assembled_count (name : String) (last : Ref) (stride : Scalar) {body : Node}
    (hn : Asks S (body.contained true)) (first : Scalar) :
    Assembled S b frame fun ev => count ev frame name last stride body first :=
  .iterate first fun _ => .bind (.primitive (.scalar last)) fun _ => .bind (.primitive (.lift _)) fun _ =>
    .ite (.bind (.primitive (.number _)) fun _ => .bind (.bound name _) fun _ => .bind (.primitive (.lift _)) fun _ =>
      .bind (.loopBody hn) fun _ => assembled_pure _) (assembled_pure _)

theorem assembled_strideOf {stride : Option Node} (hn : Asks S (Node.partContained stride b)) :
    Assembled S b frame fun ev => strideOf ev frame stride := by
  cases stride with
  | none => exact assembled_pure _
  | some node => exact .bind (.part hn) fun _ => .primitive (.scalar _)

theorem assembled_each (name : String) (items : Ref) {body : Node} (hn : Asks S (body.contained true)) :
    Assembled S b frame fun ev => each ev frame name items body := by
  refine .iterate 0 fun i => .bind (.primitive (.elementAt items i)) fun element => ?_
  cases element with
  | none => exact assembled_pure _
  | some r => exact .bind (.bound name _) fun _ => .bind (.loopBody hn) fun _ => assembled_pure _

theorem assembled_allTrue {conditions : List Node} (hn : Asks S (Node.allContained conditions b)) :
    Assembled S b frame fun ev => allTrue ev frame conditions := by
  induction conditions with
  | nil => exact assembled_pure _
  | cons c conditions ih =>
    exact .bind (.part hn.left) fun _ => .bind (.primitive (.isTrue _)) fun _ => .ite (ih hn.right) (assembled_pure _)

theorem assembled_collect (name : String) {conditions : List Node} (hn : Asks S (Node.allContained conditions b))
    (items : Ref) {rest : Evaluator → Eval (Array Ref)} (hrest : Assembled S b frame rest) :
    Assembled S b frame fun ev => collect ev frame name conditions items (rest ev) := by
  refine .iterate _ fun state => .bind (.primitive (.itemAt items _)) fun item => ?_
  cases item with
  | none => exact assembled_pure _
  | some v =>
    exact .bind (.bound name v) fun _ =>
      .bind (.bind (assembled_allTrue hn) fun _ => .ite hrest (assembled_pure _)) fun _ => assembled_pure _

theorem assembled_comprehension {expression : Node} (he : Asks S (expression.contained b))
    {clauses : List Clause} (hn : Asks S (Node.clausesContained clauses b)) :
    Assembled S b frame fun ev => comprehension ev frame expression clauses := by
  induction clauses with
  | nil => exact .bind (.part he) fun _ => assembled_pure _
  | cons c clauses ih =>
    refine .bind (.part hn.left) fun items => .bind (.primitive (.payload items)) fun p => ?_
    have found := assembled_collect c.1.text hn.right.left items (ih hn.right.right)
    cases p with
    | list | tuple | set => exact found
    | _ => exact .errorAt _ _

theorem assembled_bindName (name : Option Token) (r : Ref) :
    Assembled S b frame fun _ => bindName frame name r := by
  cases name with
  | none => exact assembled_pure _
  | some t => exact .bound t.text _

theorem assembled_regexLiteral (span : Span) (tok : Token) :
    Assembled S b frame fun _ => regexLiteral span tok frame := by
  unfold regexLiteral
  split
  · exact .make span fun _ => rfl
  · exact .errorAt span _
  · exact .primitive (.fault _)

theorem assembled_givenBy {value : Option Node} (hn : Asks S (Node.partContained value b)) :
    Assembled S b frame fun ev => givenBy ev frame value := by
  cases value with
  | none => exact assembled_pure _
  | some node => exact .part hn

/-- Every step is put together from the evaluation of the parts of its node. -/
theorem assembled_step {node : Node} (hn : Asks S (node.contained b)) :
    Assembled S b frame fun ev => step ev node frame := by
  cases node with
  | number span tok | string span tok => exact .make span fun _ => rfl
  | regex span tok => exact assembled_regexLiteral span tok
  | list span nodes | tuple span nodes => exact .bind (assembled_all hn) fun _ => .make span fun _ => rfl
  | comprehension span expression clauses =>
    exact .collected (x := fun ev inner => comprehension ev inner expression clauses) span fun _ =>
      assembled_comprehension hn.right hn.left
  | set span nodes =>
    exact .bind (assembled_all hn) fun _ => .bind (.primitive .store) fun _ =>
      .bind (.primitive (.ofPrinting _)) fun _ =>
      .make span fun _ => rfl
  | dict span pairs =>
    exact .bind (assembled_entries hn []) fun _ => .bind (.primitive (.newTable _)) fun _ => .make span fun _ => rfl
  | named span name => exact .named span name.text
  | assign | constant => exact .bind (.part hn) fun _ => .bind (.bound _ _) fun _ => assembled_pure _
  | binary span left op right =>
    refine .bind (.part hn.left) fun l => .bind (.part hn.right) fun r => ?_
    split
    · exact .bind (.primitive (.binary _ l r)) fun _ => .place _ span
    · exact assembled_pure _
  | unary span op operand =>
    exact .bind (.part hn) fun r => .bind (.primitive (.unary op r)) fun _ => .place _ span
  | apply span callee args => exact .application span hn.left hn.right
  | index span collection key =>
    exact .bind (.part hn.left) fun c => .bind (.part hn.right) fun k => .index collection key c k
  | conditional span cases rest => exact assembled_conditional hn.right hn.left
  | switch span subject cases rest =>
    exact .bind (.part hn.left) fun s => assembled_switch s hn.right.right hn.right.left
  | count span name first last stride body =>
    exact .bind (.part hn.left) fun _ => .bind (.part hn.right.left) fun last =>
      .bind (assembled_strideOf hn.right.right.left) fun stride => .bind (.primitive (.scalar _)) fun i =>
        .bind (assembled_count _ last stride hn.right.right.right i) fun _ => assembled_pure _
  | each span name items body =>
    refine .bind (.part hn.left) fun r => .bind (.primitive (.payload r)) fun p => ?_
    have rounds := (assembled_each name.text r hn.right : Assembled S b frame _).bind fun _ => assembled_pure Store.null
    cases p with
    | list | tuple => exact rounds
    | _ => exact .errorAt _ _
  | loop span condition body =>
    refine .bind (assembled_rounds ?_) fun _ => assembled_pure _
    exact .bind (.part hn.left) fun _ => .bind (.primitive (.isTrue _)) fun _ =>
      .ite (.loopBody hn.right) (assembled_pure _)
  | repetition span body condition =>
    refine .bind (assembled_rounds ?_) fun _ => assembled_pure _
    exact .bind (.loopBody hn.left) fun _ =>
      .ite (.bind (.part hn.right) fun _ => .primitive (.isTrue _)) (assembled_pure _)
  | function span name params body =>
    exact .bind (.make span hn) fun _ => .bind (assembled_bindName name _) fun _ => assembled_pure _
  | lambda span params body => exact .make span hn
  | give span value => exact .bind (assembled_givenBy hn) fun r => .give r
  | cut span => exact .cut hn
  | skip span => exact .skip hn
  | attempt span body handler name => exact .attempt span name hn.left hn.right
  | bring span path items => exact .bring span path items
  | share span names => exact .share names

end Eval

end Utterance

import Utterance.Token.Basic

/-!
# Program trees

A program is a tree of nodes. Every node carries the span of source text that it is reported with. The functions
in the namespace `Node` that take tokens and nodes only (`Node.ofNumber`, `Node.call`, …) build a node and work its
span out.
-/

namespace Utterance

/-- The text between two positions. -/
structure Span where
  start : Position
  stop : Position
deriving Inhabited

/-- A node of a program tree. The flag of a case says that its body is a block, whose value is dropped. -/
inductive Node where
  | number (span : Span) (tok : Token)
  | string (span : Span) (tok : Token)
  | regex (span : Span) (tok : Token)
  | list (span : Span) (elements : List Node)
  /-- A list of the values of `expression`, for the variables of all clauses; a clause has a variable, what it runs
  through, and conditions. -/
  | comprehension (span : Span) (expression : Node) (clauses : List (Token × Node × List Node))
  | tuple (span : Span) (elements : List Node)
  | set (span : Span) (elements : List Node)
  | dict (span : Span) (pairs : List (Node × Node))
  | named (span : Span) (name : Token)
  | assign (span : Span) (name : Token) (value : Node)
  | constant (span : Span) (name : Token) (value : Node)
  | binary (span : Span) (left : Node) (op : Token) (right : Node)
  | unary (span : Span) (op : Token) (operand : Node)
  | apply (span : Span) (callee : Node) (args : List Node)
  | index (span : Span) (collection : Node) (key : Node)
  | conditional (span : Span) (cases : List (Node × Node × Bool)) (otherwise : Option (Node × Bool))
  | switch (span : Span) (subject : Node) (cases : List (Node × Node × Bool)) (default : Option (Node × Bool))
  | count (span : Span) (name : Token) (first last : Node) (step : Option Node) (body : Node)
  | each (span : Span) (name : Token) (items : Node) (body : Node)
  | loop (span : Span) (condition : Node) (body : Node)
  | repetition (span : Span) (body : Node) (condition : Node)
  | function (span : Span) (name : Option Token) (params : List Token) (body : Node)
  | lambda (span : Span) (params : List Token) (body : Node)
  | give (span : Span) (value : Option Node)
  | cut (span : Span)
  | skip (span : Span)
  | attempt (span : Span) (body : Node) (handler : Node) (name : Option Token)
  /-- Brings in all of a module, or some names of it with the names that they get. -/
  | bring (span : Span) (path : Token) (items : Option (List (Token × Option Token)))
  | share (span : Span) (names : List Token)

instance : Inhabited Node := ⟨.cut default⟩

/-- A case of a conditional or of a switch, with its body. -/
abbrev Case := Node × Node × Bool

/-- A clause of a comprehension: what is bound to which elements, and under which conditions. -/
abbrev Clause := Token × Node × List Node

/-- A name that is brought in, and the one that it gets. -/
abbrev Item := Token × Option Token

namespace Node

def span : Node → Span
  | number s _ | string s _ | regex s _ | list s _ | comprehension s _ _ | tuple s _ | set s _ | dict s _
  | named s _ | assign s _ _ | constant s _ _ | binary s _ _ _ | unary s _ _ | apply s _ _ | index s _ _
  | conditional s _ _ | switch s _ _ _ | count s _ _ _ _ _ | each s _ _ _ | loop s _ _ | repetition s _ _
  | function s _ _ _ | lambda s _ _ | give s _ | cut s | skip s | attempt s _ _ _ | bring s _ _ | share s _ => s

def start (n : Node) : Position := n.span.start

def stop (n : Node) : Position := n.span.stop

def spanOf (t : Token) : Span := ⟨t.start, t.stop⟩

def ofNumber (t : Token) : Node := number (spanOf t) t

def ofString (t : Token) : Node := string (spanOf t) t

def ofRegex (t : Token) : Node := regex (spanOf t) t

def ofName (t : Token) : Node := named (spanOf t) t

def assignTo (name : Token) (value : Node) : Node := assign ⟨value.start, name.stop⟩ name value

def keepAs (name : Token) (value : Node) : Node := constant ⟨value.start, name.stop⟩ name value

def operation (left : Node) (op : Token) (right : Node) : Node := binary ⟨left.start, right.stop⟩ left op right

def signed (op : Token) (operand : Node) : Node := unary ⟨op.start, operand.stop⟩ op operand

def call (callee : Node) (args : List Node) : Node :=
  apply ⟨callee.start, ((args.getLast?).map stop).getD callee.stop⟩ callee args

def element (collection key : Node) : Node := index ⟨collection.start, key.stop⟩ collection key

/-- A choice between cases, starting with the condition of the first one. It ends with the block for all other
cases, or else with the condition of the last case. -/
def choose (first : Case) (more : List Case) (otherwise : Option (Node × Bool)) : Node :=
  let last := (more.getLast?).getD first
  let stop := ((otherwise.map (·.1.stop)).getD last.1.stop)
  conditional ⟨first.1.start, stop⟩ (first :: more) otherwise

/-- A choice by value ends with its default, or else with the body of its last case. -/
def select (subject : Node) (cases : List Case) (default : Option (Node × Bool)) : Node :=
  let last := ((cases.getLast?).map (·.2.1.stop)).getD subject.stop
  switch ⟨subject.start, (default.map (·.1.stop)).getD last⟩ subject cases default

def countTo (name : Token) (first last : Node) (step : Option Node) (body : Node) : Node :=
  count ⟨name.start, body.stop⟩ name first last step body

def eachOf (name : Token) (items body : Node) : Node := each ⟨name.start, body.stop⟩ name items body

def loopWhile (condition body : Node) : Node := loop ⟨condition.start, body.stop⟩ condition body

def repeatWhile (body condition : Node) : Node := repetition ⟨body.start, condition.stop⟩ body condition

/-- A function starts with its name, or else with its first parameter, or else with its body. -/
def define (name : Option Token) (params : List Token) (body : Node) : Node :=
  let start := ((name <|> params.head?).map Token.start).getD body.start
  function ⟨start, body.stop⟩ name params body

def attemptOr (body handler : Node) (name : Option Token) : Node :=
  attempt ⟨body.start, handler.stop⟩ body handler name

def bringFrom (path : Token) (items : Option (List Item)) : Node :=
  bring (spanOf path) path items

/-- The printed form of a node; only literals, operations and anonymous functions of such have one. -/
def printed : Node → Option (Except Fault String)
  | number _ t => some t.printed
  | string _ t => some t.printed
  | regex _ t => some (return "r\"" ++ (← t.value.printed) ++ "\"")
  | binary _ l op r =>
    match printed l, printed r with
    | some l, some r => some (return "(" ++ (← l) ++ ", " ++ (← op.printed) ++ ", " ++ (← r) ++ ")")
    | _, _ => none
  | unary _ op n => (printed n).map fun n => return "(" ++ (← op.printed) ++ ", " ++ (← n) ++ ")"
  | lambda _ params body =>
    (printed body).map fun body => do
      let names ← params.mapM Token.printed
      return "LambdaNode([" ++ ", ".intercalate names ++ "], " ++ (← body) ++ ")"
  | _ => none

end Node

end Utterance

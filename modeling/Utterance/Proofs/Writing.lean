import Utterance.Proofs.Marks

/-!
# How expressions are written

`Node.Expression` are the trees of the expression language, and `Node.written` lists what the tokens of such a tree
hold. Parentheses stand only around what binds more loosely than its place asks for (`Node.binding`), and around an
anonymous function where something follows that its body would take in.
-/

namespace Utterance

open Token (Kind)

/-- How tightly a token binds what stands before it: operators from `and` and `or` on, then what makes a call or looks
into a collection. Other tokens end an expression. -/
def strength : Mark → Nat
  | (.keyword, value) => if value == .text "and" || value == .text "or" then 1 else 0
  | (.ee, _) | (.ne, _) | (.lt, _) | (.gt, _) | (.lte, _) | (.gte, _) => 2
  | (.ampersand, _) | (.caret, _) => 3
  | (.plus, _) | (.minus, _) => 4
  | (.mul, _) | (.div, _) | (.mod, _) => 5
  | (.lparen, _) | (.atSign, _) => 7
  | _ => 0

def enclosed (ms : List Mark) : List Mark := bare .lparen :: (ms ++ [bare .rparen])

/-- The tokens of further items, each after a separator. -/
def eachAfter {α : Type} (separator : Mark) (marks : α → List Mark) (xs : List α) : List Mark :=
  xs.flatMap fun x => separator :: marks x

def withCommas {α : Type} (marks : α → List Mark) : List α → List Mark
  | [] => []
  | x :: xs => marks x ++ eachAfter (bare .comma) marks xs

namespace Node

/-- The trees of the expression language. -/
inductive Expression : Node → Prop
  | number {s t} : t.kind = .int ∨ t.kind = .float → Expression (.number s t)
  | string {s t} : t.kind = .string → Expression (.string s t)
  | named {s t} : t.kind = .identifier → Expression (.named s t)
  | sign {s op e} : op.kind = .plus ∨ op.kind = .minus → Expression e → Expression (.unary s op e)
  | negation {s op e} : op.content = word "not" → Expression e → Expression (.unary s op e)
  | binary {s l op r} : 1 ≤ strength op.content → strength op.content ≤ 5 → Expression l → Expression r →
    Expression (.binary s l op r)
  | apply {s f xs} : Expression f → (∀ x ∈ xs, Expression x) → Expression (.apply s f xs)
  | index {s c k} : Expression c → Expression k → Expression (.index s c k)
  | list {s xs} : (∀ x ∈ xs, Expression x) → Expression (.list s xs)
  | tuple {s xs} : (∀ x ∈ xs, Expression x) → Expression (.tuple s xs)
  | set {s xs} : (∀ x ∈ xs, Expression x) → Expression (.set s xs)
  | dict {s ps} : (∀ p ∈ ps, Expression p.1) → (∀ p ∈ ps, Expression p.2) → Expression (.dict s ps)
  | lambda {s params b} : (∀ t ∈ params, t.kind = .identifier) → Expression b → Expression (.lambda s params b)
  | comprehension {s e cs} : Expression e → cs ≠ [] → (∀ c ∈ cs, c.1.kind = .identifier) →
    (∀ c ∈ cs, Expression c.2.1) → (∀ c ∈ cs, ∀ x ∈ c.2.2, Expression x) → Expression (.comprehension s e cs)

/-- How tightly an expression is held together: from negations, which take in all that follows, to atoms. -/
def binding : Node → Nat
  | .unary _ op _ => if op.kind = .keyword then 0 else 6
  | .binary _ _ op _ => strength op.content
  | .apply .. => 7
  | .index .. => 8
  | _ => 9

def isLambda : Node → Bool
  | .lambda .. => true
  | _ => false

/-- An expression at a place that asks for a binding, in parentheses if need be. The flag `last` says that nothing
follows which the expression could take in. -/
def fit (level : Nat) (last : Bool) (e : Node) (written : Bool → List Mark) : List Mark :=
  if e.binding < level || e.isLambda && !last then enclosed (written true) else written last

mutual

/-- What the tokens of an expression hold; the flag says that nothing follows which the expression could take in. -/
@[simp] def written : Node → Bool → List Mark
  | .number _ t, _ => [t.content]
  | .string _ t, _ => [t.content]
  | .named _ t, _ => [t.content]
  | .unary _ op e, last => op.content :: (if op.kind = .keyword then written e true else fit 6 last e (written e))
  | .binary _ l op r, last =>
    fit (strength op.content) false l (written l) ++ op.content :: fit (strength op.content + 1) last r (written r)
  | .apply _ f xs, _ => fit 9 false f (written f) ++ bare .lparen :: (writtenRow xs ++ [bare .rparen])
  | .index _ c k, last => fit 8 false c (written c) ++ bare .atSign :: fit 9 last k (written k)
  | .list _ xs, _ => bare .lsquare :: (writtenRow xs ++ [bare .rsquare])
  | .tuple _ xs, _ => bare .langle :: (writtenRow xs ++ [bare .rangle])
  | .set _ xs, _ => bare .lsetbrace :: (writtenRow xs ++ [bare .rsetbrace])
  | .dict _ ps, _ => bare .lcurly :: (writtenPairs ps ++ [bare .rcurly])
  | .lambda _ params b, _ =>
    word "lambda" :: (withCommas (fun t => [t.content]) params ++ bare .arrow :: written b true)
  | .comprehension _ e cs, _ => bare .lsquare :: (written e true ++ (writtenClauses cs ++ [bare .rsquare]))
  | _, _ => []

def writtenRow : List Node → List Mark
  | [] => []
  | x :: xs => written x true ++ writtenAfter (bare .comma) xs

def writtenAfter (separator : Mark) : List Node → List Mark
  | [] => []
  | x :: xs => separator :: (written x true ++ writtenAfter separator xs)

def writtenPairs : List (Node × Node) → List Mark
  | [] => []
  | (k, v) :: ps => written k true ++ bare .colon :: (written v true ++ writtenMorePairs ps)

def writtenMorePairs : List (Node × Node) → List Mark
  | [] => []
  | (k, v) :: ps => bare .comma :: (written k true ++ bare .colon :: (written v true ++ writtenMorePairs ps))

def writtenClauses : List Clause → List Mark
  | [] => []
  | (t, items, conditions) :: cs =>
    word "cycle" :: t.content :: word "in" ::
      (written items true ++ (writtenAfter (word "where") conditions ++ writtenClauses cs))

end

end Node

end Utterance

import Utterance.Proofs.Bookkeeping

/-!
# The literals and names of a tree

`Node.leaves` lists the literals and names in a tree, in the order in which they are written. `Account` relates them
to the tokens between two indices of a text: every literal and name is kept, in its place, with three exceptions. The
words `true`, `false` and `show` stand for tokens of their own, the names in the path of a module are joined, and some
stretches of a text have no part in the tree (`Dropped`).
-/

namespace Utterance

namespace Token

def isLeaf (t : Token) : Bool := [Kind.int, .float, .string, .regex, .identifier].contains t.kind

/-- A token that counts as a leaf, and nothing in the place of any other. -/
def leaf (t : Token) : List Token := if t.isLeaf then [t] else []

def isSilent (t : Token) : Bool :=
  !t.isLeaf && !t.isKeyword "true" && !t.isKeyword "false" && !t.isKeyword "show"

variable {t : Token}

theorem leaf_eq (h : t.isLeaf = true) : t.leaf = [t] := if_pos h

theorem isLeaf_of_kind (h : t.kind = .identifier) : t.isLeaf = true := by
  rw [isLeaf, h]
  rfl

theorem leaf_of_isSilent (h : t.isSilent = true) : t.leaf = [] := by
  unfold isSilent at h
  have hleaf : t.isLeaf = false := by
    cases hl : t.isLeaf with
    | false => rfl
    | true => simp [hl] at h
  rw [leaf, hleaf]
  rfl

end Token

namespace Node

def itemLeaves (i : Item) : List Token := i.1.leaf ++ i.2.toList.flatMap Token.leaf

mutual

/-- The literals and names in a tree, in the order in which they are written. -/
@[simp] def leaves : Node → List Token
  | .number _ t => t.leaf
  | .string _ t => t.leaf
  | .regex _ t => t.leaf
  | .named _ t => t.leaf
  | .list _ es => leavesOfAll es
  | .tuple _ es => leavesOfAll es
  | .set _ es => leavesOfAll es
  | .comprehension _ e cs => e.leaves ++ leavesOfClauses cs
  | .dict _ ps => leavesOfPairs ps
  | .assign _ name v => v.leaves ++ name.leaf
  | .constant _ name v => v.leaves ++ name.leaf
  | .binary _ l op r => l.leaves ++ op.leaf ++ r.leaves
  | .unary _ op e => op.leaf ++ e.leaves
  | .apply _ f es => f.leaves ++ leavesOfAll es
  | .index _ c k => c.leaves ++ k.leaves
  | .conditional _ cs o => leavesOfCases cs ++ leavesOfBody o
  | .switch _ e cs o => e.leaves ++ leavesOfCases cs ++ leavesOfBody o
  | .count _ name f l s b => name.leaf ++ f.leaves ++ l.leaves ++ leavesOfOption s ++ b.leaves
  | .each _ name e b => name.leaf ++ e.leaves ++ b.leaves
  | .loop _ c b => c.leaves ++ b.leaves
  | .repetition _ b c => c.leaves ++ b.leaves
  | .function _ name ps b => name.toList.flatMap Token.leaf ++ ps.flatMap Token.leaf ++ b.leaves
  | .lambda _ ps b => ps.flatMap Token.leaf ++ b.leaves
  | .give _ v => leavesOfOption v
  | .cut _ => []
  | .skip _ => []
  | .attempt _ b h name => b.leaves ++ name.toList.flatMap Token.leaf ++ h.leaves
  | .bring _ path items => (items.getD []).flatMap itemLeaves ++ path.leaf
  | .share _ names => names.flatMap Token.leaf

def leavesOfAll : List Node → List Token
  | [] => []
  | e :: es => e.leaves ++ leavesOfAll es

def leavesOfOption : Option Node → List Token
  | none => []
  | some e => e.leaves

def leavesOfBody : Option (Node × Bool) → List Token
  | none => []
  | some (b, _) => b.leaves

def leavesOfPairs : List (Node × Node) → List Token
  | [] => []
  | (k, v) :: ps => k.leaves ++ v.leaves ++ leavesOfPairs ps

def leavesOfCases : List Case → List Token
  | [] => []
  | (c, b, _) :: cs => c.leaves ++ b.leaves ++ leavesOfCases cs

def leavesOfClauses : List Clause → List Token
  | [] => []
  | (name, e, conditions) :: cs => name.leaf ++ e.leaves ++ leavesOfAll conditions ++ leavesOfClauses cs

end

def pairLeaves (p : Node × Node) : List Token := p.1.leaves ++ p.2.leaves

def caseLeaves (c : Case) : List Token := c.1.leaves ++ c.2.1.leaves

def clauseLeaves (c : Clause) : List Token := c.1.leaf ++ c.2.1.leaves ++ c.2.2.flatMap leaves

@[simp] theorem leavesOfAll_eq (es : List Node) : leavesOfAll es = es.flatMap leaves := by
  induction es with
  | nil => rfl
  | cons e es ih => rw [leavesOfAll, ih, List.flatMap_cons]

@[simp] theorem leavesOfOption_eq (e : Option Node) : leavesOfOption e = e.toList.flatMap leaves := by
  cases e with
  | none => rfl
  | some e => exact (List.append_nil _).symm

@[simp] theorem leavesOfBody_eq (b : Option (Node × Bool)) : leavesOfBody b = b.toList.flatMap (·.1.leaves) := by
  cases b with
  | none => rfl
  | some b => exact (List.append_nil _).symm

@[simp] theorem leavesOfPairs_eq (ps : List (Node × Node)) : leavesOfPairs ps = ps.flatMap pairLeaves := by
  induction ps with
  | nil => rfl
  | cons p ps ih => rw [leavesOfPairs, ih, List.flatMap_cons, pairLeaves]

@[simp] theorem leavesOfCases_eq (cs : List Case) : leavesOfCases cs = cs.flatMap caseLeaves := by
  induction cs with
  | nil => rfl
  | cons c cs ih => rw [leavesOfCases, ih, List.flatMap_cons, caseLeaves]

@[simp] theorem leavesOfClauses_eq (cs : List Clause) : leavesOfClauses cs = cs.flatMap clauseLeaves := by
  induction cs with
  | nil => rfl
  | cons c cs ih => rw [leavesOfClauses, ih, List.flatMap_cons, clauseLeaves, leavesOfAll_eq]

end Node

namespace Grammar

open Reading

abbrev Input.ofTokens (ts : List Token) : Input := .ofList (ts.map .token)

def tokenAt (ts : List Token) (i : Nat) : Token := ts[i]?.getD (ts.getLast?.getD default)

theorem at_tokenAt (ts : List Token) (i : Nat) : (Input.ofTokens ts).At i (tokenAt ts i) := by
  unfold Input.At Input.ofTokens Input.ofList tokenAt
  simp only [List.getElem?_toArray, List.getElem?_map, List.getLast?_map]
  cases ts[i]? with
  | some t => rfl
  | none => cases ts.getLast? <;> rfl

def Expression (ts : List Token) (i j : Nat) : Prop := ∃ n e, read n .logic (.ofTokens ts) i = .ok e j

/-- What has been read between two indices and has no part in the tree. -/
inductive Dropped (ts : List Token) : Nat → Nat → Prop
  /-- The place in an assignment to a place in a collection. -/
  | place {h i j} : (tokenAt ts h).isKeyword "put" = true → Expression ts (h + 1) i →
      (tokenAt ts i).isKeyword "in" = true → (tokenAt ts (i + 1)).kind = .identifier →
      (tokenAt ts (i + 2)).kind = .atSign → Expression ts (i + 3) j → Dropped ts (i + 3) j
  /-- The condition of another case whose body does not begin on a line of its own. -/
  | condition {i j} : (tokenAt ts i).isKeyword "otherwise" = true → (tokenAt ts (i + 1)).isKeyword "when" = true →
      Expression ts (i + 2) j → (tokenAt ts j).kind = .colon → (tokenAt ts (j + 1)).kind ≠ .newline →
      Dropped ts (i + 2) j
  /-- The variable and the items of a loop through a collection whose body does not begin on a line of its own. -/
  | head {i j} : (tokenAt ts i).isKeyword "each" = true → (tokenAt ts (i + 1)).kind = .identifier →
    (tokenAt ts (i + 2)).isKeyword "through" = true → Expression ts (i + 3) j → (tokenAt ts j).kind = .colon →
    (tokenAt ts (j + 1)).kind ≠ .newline → Dropped ts (i + 1) j

/-- Names between two indices, with slashes in between. -/
inductive Names (ts : List Token) : Nat → Nat → List Token → Prop
  | last {i} : (tokenAt ts i).kind = .identifier → Names ts i (i + 1) [tokenAt ts i]
  | more {i j names} : (tokenAt ts i).kind = .identifier → (tokenAt ts (i + 1)).kind = .div → Names ts (i + 2) j names →
    Names ts i j (tokenAt ts i :: names)

/-- The tokens between two indices are accounted for by a list of leaves. -/
inductive Account (ts : List Token) : Nat → Nat → List Token → Prop
  | nil (i : Nat) : Account ts i i []
  | silent {i j ls} : (tokenAt ts i).isSilent = true → Account ts (i + 1) j ls → Account ts i j ls
  | leaf {i j ls} : (tokenAt ts i).isLeaf = true → Account ts (i + 1) j ls →
      Account ts i j (tokenAt ts i :: ls)
  /-- A truth value is a number in the tree. -/
  | truth {i j ls} (b : Bool) : (tokenAt ts i).isKeyword (if b then "true" else "false") = true →
      Account ts (i + 1) j ls →
      Account ts i j (⟨.int, .int (if b then 1 else 0), (tokenAt ts i).start, (tokenAt ts i).stop⟩ :: ls)
  /-- Output is a call in the tree, of a function that is placed at some later token. -/
  | output {i j k ls} : (tokenAt ts i).isKeyword "show" = true → Account ts (i + 1) j ls →
      Account ts i j (⟨.identifier, .text "show", (tokenAt ts k).start, (tokenAt ts k).stop⟩ :: ls)
  /-- The path of a module that is brought in is one token in the tree. -/
  | path {h i j k names path items ls} : (tokenAt ts h).isKeyword "bring" = true →
    bring (.ofTokens ts) h = .ok (.bringFrom path items) j → Names ts i j names →
    path.value = .text ("/".intercalate (names.map Token.text)) → Account ts j k ls → Account ts i k (path :: ls)
  | dropped {i j k ls} : Dropped ts i j → Account ts j k ls → Account ts i k ls

variable {ts : List Token} {i j k : Nat} {ls ls' : List Token}

theorem Account.trans (h : Account ts i j ls) (h' : Account ts j k ls') : Account ts i k (ls ++ ls') := by
  induction h with
  | nil => exact h'
  | silent ht _ ih => exact .silent ht (ih h')
  | leaf ht _ ih => exact .leaf ht (ih h')
  | truth b ht _ ih => exact .truth b ht (ih h')
  | output ht _ ih => exact .output ht (ih h')
  | path hb hread hnames hpath _ ih => exact .path hb hread hnames hpath (ih h')
  | dropped hd _ ih => exact .dropped hd (ih h')

theorem Account.of_leaf (h : (tokenAt ts i).isLeaf = true) : Account ts i (i + 1) (tokenAt ts i).leaf := by
  rw [Token.leaf_eq h]
  exact .leaf h (.nil _)

end Grammar

end Utterance

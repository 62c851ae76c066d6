import Utterance.Token.Basic

/-!
# Productions

The grammar in an extended Backus-Naur form: `documented` is the one that the language is described with, and
`accepted` differs from it where the language does. `Derives` says which tokens come from the right side of a
production.

What differs is this. A place in a collection is given by an atom, and any number of places may follow each other; one
`end` is enough for a conditional with all its cases; and the cases after the first one, like a loop through a
collection, have a block as their body.
-/

namespace Utterance.Grammar

open Token (Kind)

inductive Production where
  | program | statements | statement | expr | logicExpr | compExpr | arithExpr | term | factor | call | atom | listExpr
  | ifExpr | ifElif | ifElse | loopExpr | whileExpr | doWhileExpr | funcDef
deriving DecidableEq, Repr

/-- The right side of a production. -/
inductive Ebnf where
  | kind (k : Kind)
  | word (w : String)
  | rule (p : Production)
  | seq (a b : Ebnf)
  | alt (a b : Ebnf)
  | opt (a : Ebnf)
  | star (a : Ebnf)

namespace Ebnf

instance : Append Ebnf := ⟨seq⟩

instance : OrOp Ebnf := ⟨alt⟩

def plus (a : Ebnf) : Ebnf := a ++ star a

def row (a : Ebnf) : Ebnf := opt (a ++ star (kind .comma ++ a))

def block : Ebnf := kind .newline ++ rule .statements

/-- What follows the colon of a loop or of a function. -/
def body : Ebnf := block ++ word "end" ||| rule .statement

end Ebnf

open Ebnf

/-- The productions of the grammar as it is documented. -/
def documented : Production → Ebnf
  | .program => star (kind .newline) ++ rule .statements ++ star (kind .newline) ++ kind .eof
  | .statements =>
    star (kind .newline) ++ rule .statement ++ star (plus (kind .newline) ++ rule .statement) ++ star (kind .newline)
  | .statement => word "give" ++ opt (rule .logicExpr) ||| rule .expr
  | .expr =>
    word "put" ++ rule .logicExpr ++ word "in" ++ kind .identifier ++ opt (kind .atSign ++ rule .logicExpr) |||
    word "keep" ++ rule .logicExpr ++ word "as" ++ kind .identifier |||
    word "show" ++ rule .logicExpr |||
    rule .logicExpr
  | .logicExpr =>
    word "not" ++ rule .logicExpr ||| rule .compExpr ++ star ((word "and" ||| word "or") ++ rule .compExpr)
  | .compExpr =>
    rule .arithExpr ++
      star ((kind .ee ||| kind .ne ||| kind .lt ||| kind .gt ||| kind .lte ||| kind .gte) ++ rule .arithExpr)
  | .arithExpr => rule .term ++ star ((kind .plus ||| kind .minus) ++ rule .term)
  | .term => rule .factor ++ star ((kind .mul ||| kind .div) ++ rule .factor)
  | .factor => (kind .plus ||| kind .minus) ++ rule .factor ||| rule .call
  | .call =>
    rule .atom ++ opt (kind .lparen ++ row (rule .logicExpr) ++ kind .rparen) |||
    rule .atom ++ opt (kind .atSign ++ rule .logicExpr)
  | .atom =>
    kind .int ||| kind .float ||| kind .string ||| kind .identifier ||| word "true" ||| word "false" |||
    kind .lparen ++ rule .logicExpr ++ kind .rparen |||
    rule .listExpr ||| rule .ifExpr ||| rule .loopExpr ||| rule .whileExpr ||| rule .doWhileExpr ||| rule .funcDef
  | .listExpr => kind .lsquare ++ row (rule .logicExpr) ++ kind .rsquare
  | .ifExpr =>
    word "when" ++ rule .logicExpr ++ kind .colon ++
      (block ++ opt (rule .ifElif ||| rule .ifElse) ++ word "end" ||| rule .statement)
  | .ifElif => word "otherwise" ++ word "when" ++ rule .logicExpr ++ kind .colon ++ (block ||| rule .statement)
  | .ifElse => word "otherwise" ++ kind .colon ++ body
  | .loopExpr =>
    word "cycle" ++ kind .identifier ++ word "from" ++ rule .logicExpr ++ word "to" ++ rule .logicExpr ++ kind .colon ++
      body |||
    word "cycle" ++ word "each" ++ kind .identifier ++ word "through" ++ rule .logicExpr ++ kind .colon ++ body
  | .whileExpr => word "as long as" ++ rule .logicExpr ++ kind .colon ++ body
  | .doWhileExpr => word "repeat while" ++ rule .logicExpr ++ kind .colon ++ body
  | .funcDef =>
    word "make function" ++ opt (kind .identifier) ++ kind .lparen ++ row (kind .identifier) ++ kind .rparen ++
      kind .colon ++ body

/-- The productions with what differs from the documented ones. -/
def accepted : Production → Ebnf
  | .call =>
    rule .atom ++ opt (kind .lparen ++ row (rule .logicExpr) ++ kind .rparen) |||
    rule .atom ++ star (kind .atSign ++ rule .atom)
  | .ifElif => word "otherwise" ++ word "when" ++ rule .logicExpr ++ kind .colon ++ block
  | .ifElse => word "otherwise" ++ kind .colon ++ block
  | .loopExpr =>
    word "cycle" ++ kind .identifier ++ word "from" ++ rule .logicExpr ++ word "to" ++ rule .logicExpr ++ kind .colon ++
      body |||
    word "cycle" ++ word "each" ++ kind .identifier ++ word "through" ++ rule .logicExpr ++ kind .colon ++
      (block ++ word "end")
  | p => documented p

/-- Tokens come from the right side of a production. -/
inductive Derives (g : Production → Ebnf) : Ebnf → List Token → Prop
  | kind {t} : Derives g (.kind t.kind) [t]
  | word {t w} : t.isKeyword w = true → Derives g (.word w) [t]
  | rule {p ts} : Derives g (g p) ts → Derives g (.rule p) ts
  | seq {a b ts us} : Derives g a ts → Derives g b us → Derives g (.seq a b) (ts ++ us)
  | left {a b ts} : Derives g a ts → Derives g (.alt a b) ts
  | right {a b ts} : Derives g b ts → Derives g (.alt a b) ts
  | none {a} : Derives g (.opt a) []
  | some {a ts} : Derives g a ts → Derives g (.opt a) ts
  | nil {a} : Derives g (.star a) []
  | cons {a ts us} : Derives g a ts → Derives g (.star a) us → Derives g (.star a) (ts ++ us)

/-- The last tokens of a list follow those that come from the right side of a production. -/
def Spans (x : Ebnf) (l r : List Token) : Prop := ∃ ts, Derives accepted x ts ∧ l = ts ++ r

namespace Spans

variable {x y : Ebnf} {l r : List Token}

theorem suffix (h : Spans x l r) : r <:+ l := by
  obtain ⟨ts, -, rfl⟩ := h
  exact List.suffix_append ts r

theorem iff_kind {k : Kind} : Spans (.kind k) l r ↔ ∃ t, t.kind = k ∧ l = t :: r := by
  constructor
  · rintro ⟨ts, h, rfl⟩
    cases h
    exact ⟨_, rfl, rfl⟩
  · rintro ⟨t, rfl, rfl⟩
    exact ⟨[t], .kind, rfl⟩

theorem iff_word {w : String} : Spans (.word w) l r ↔ ∃ t, t.isKeyword w = true ∧ l = t :: r := by
  constructor
  · rintro ⟨ts, h, rfl⟩
    cases h with
    | word hw => exact ⟨_, hw, rfl⟩
  · rintro ⟨t, hw, rfl⟩
    exact ⟨[t], .word hw, rfl⟩

theorem iff_rule {p : Production} : Spans (.rule p) l r ↔ Spans (accepted p) l r := by
  constructor
  · rintro ⟨ts, h, rfl⟩
    cases h with
    | rule h => exact ⟨ts, h, rfl⟩
  · rintro ⟨ts, h, rfl⟩
    exact ⟨ts, .rule h, rfl⟩

theorem iff_append : Spans (x ++ y) l r ↔ ∃ m, Spans x l m ∧ Spans y m r := by
  constructor
  · rintro ⟨ts, h, rfl⟩
    cases h with
    | @seq _ _ us vs hx hy => exact ⟨vs ++ r, ⟨us, hx, List.append_assoc ..⟩, vs, hy, rfl⟩
  · rintro ⟨m, ⟨us, hx, rfl⟩, vs, hy, rfl⟩
    exact ⟨us ++ vs, .seq hx hy, (List.append_assoc ..).symm⟩

theorem iff_or : Spans (x ||| y) l r ↔ Spans x l r ∨ Spans y l r := by
  constructor
  · rintro ⟨ts, h, rfl⟩
    cases h with
    | left h => exact .inl ⟨ts, h, rfl⟩
    | right h => exact .inr ⟨ts, h, rfl⟩
  · rintro (⟨ts, h, rfl⟩ | ⟨ts, h, rfl⟩)
    · exact ⟨ts, .left h, rfl⟩
    · exact ⟨ts, .right h, rfl⟩

theorem iff_opt : Spans (.opt x) l r ↔ l = r ∨ Spans x l r := by
  constructor
  · rintro ⟨ts, h, rfl⟩
    cases h with
    | none => exact .inl rfl
    | some h => exact .inr ⟨ts, h, rfl⟩
  · rintro (rfl | ⟨ts, h, rfl⟩)
    · exact ⟨[], .none, rfl⟩
    · exact ⟨ts, .some h, rfl⟩

theorem star_nil (x : Ebnf) (r : List Token) : Spans (.star x) r r := ⟨[], .nil, rfl⟩

theorem star_cons {m : List Token} (h : Spans x l m) (h' : Spans (.star x) m r) : Spans (.star x) l r := by
  obtain ⟨us, hx, rfl⟩ := h
  obtain ⟨vs, hs, rfl⟩ := h'
  exact ⟨us ++ vs, .cons hx hs, (List.append_assoc ..).symm⟩

/-- What holds at the end of a repetition, and before each of its items if it holds after it, holds at its
beginning. -/
theorem star_induction {P : List Token → Prop} (h : Spans (.star x) l r) (hr : P r)
    (hstep : ∀ l m, Spans x l m → Spans (.star x) m r → P m → P l) : P l := by
  obtain ⟨ts, h, rfl⟩ := h
  generalize hy : Ebnf.star x = y at h
  induction h with
  | nil => exact hr
  | @cons a us vs hx hs _ ih =>
    cases hy
    rw [List.append_assoc]
    exact hstep _ (vs ++ r) ⟨us, hx, rfl⟩ ⟨vs, hs, rfl⟩ (ih rfl)
  | _ => cases hy

theorem star_trans {m : List Token} (h : Spans (.star x) l m) (h' : Spans (.star x) m r) : Spans (.star x) l r :=
  h.star_induction (P := fun l => Spans (.star x) l r) h' fun _ _ hx _ hm => star_cons hx hm

theorem star_cases (h : Spans (.star x) l r) : l = r ∨ ∃ m, Spans x l m ∧ Spans (.star x) m r :=
  h.star_induction (P := fun l => l = r ∨ ∃ m, Spans x l m ∧ Spans (.star x) m r) (.inl rfl)
    fun _ m hx hs _ => .inr ⟨m, hx, hs⟩

end Spans

end Utterance.Grammar

import Mathlib.Order.Filter.AtTopBot.Basic
import Utterance.Proofs.Depth
import Utterance.Proofs.Writing

/-!
# Levels of expressions

`Parsed` says what is read of an expression at the level where it is held together. Where operators group to the left,
that is the state of the loop after the last operand (`Chains`), so that the same can be said of a left operand with
more operators after it. From its own level an expression comes down to looser ones as long as the token that follows
binds more loosely (`Parsed.reads`).

All of this holds for depths that are large enough (`Reads`).
-/

namespace Utterance.Grammar

open Filter Node Reading

open Token (Kind)

variable {α : Type} {input : Input} {i j k : Nat} {t u : Token} {e : Node}

variable {β : Type} {p : Recursion → Reading α} {a : α} {f : Recursion → α → Reading β} {b : β}

/-- With enough depth, a rule reads something from one index to another. -/
def Reads (input : Input) (p : Recursion → Reading α) (i : Nat) (a : α) (j : Nat) : Prop :=
  ∀ᶠ n in atTop, p (read n) input i = .ok a j

theorem eventually_succ {P : Nat → Prop} (h : ∀ᶠ n in atTop, P n) : ∀ᶠ n in atTop, ∃ k, n = k + 1 ∧ P k := by
  obtain ⟨N, hN⟩ := eventually_atTop.1 h
  exact eventually_atTop.2 ⟨N + 1, fun n hn => ⟨n - 1, by omega, hN _ (by omega)⟩⟩

theorem Reads.le (h : Reads input p i a j) : i ≤ j := by
  obtain ⟨n, hn⟩ := h.exists
  exact le_of_ok hn

theorem Reads.bind (hp : Reads input p i a k) (hf : Reads input (fun rec => f rec a) k b j) :
    Reads input (fun rec => p rec >>= f rec) i b j := by
  filter_upwards [hp, hf] with n hp hf
  exact (bind_ok hp).trans hf

theorem Reads.pass {p : Reading α} (hp : p input i = .ok a k)
    (hf : Reads input (fun rec => f rec a) k b j) : Reads input (fun rec => p >>= f rec) i b j :=
  .bind (.of_forall fun _ => hp) hf

theorem Reads.pure (h : i = j) : Reads input (fun _ => pure a) i a j := .of_forall fun _ => h ▸ rfl

theorem Reads.factor (h : Reads input factor i e j) : Reads input (fun rec => rec .factor) i e j := by
  filter_upwards [eventually_succ h] with _ ⟨n, hn, h⟩
  rw [hn]
  exact h

theorem Reads.logic (h : Reads input logic i e j) : Reads input (fun rec => rec .logic) i e j := by
  filter_upwards [eventually_succ h] with _ ⟨n, hn, h⟩
  rw [hn]
  exact h

def isOperatorOf : Nat → Token → Bool
  | 1 => fun t => t.isKeyword "and" || t.isKeyword "or"
  | 2 => isOneOf [.ee, .ne, .lt, .gt, .lte, .gte]
  | 3 => isOneOf [.ampersand, .caret]
  | 4 => isOneOf [.plus, .minus]
  | _ => isOneOf [.mul, .div, .mod]

/-- What is read at a level of operators, and the operands of the highest one. -/
def ruleOf : Nat → Recursion → Reading Node
  | 1 => fun rec => operators (comparison rec) (isOperatorOf 1)
  | 2 => comparison
  | 3 => setOperation
  | 4 => arithmetic
  | 5 => term
  | _ => fun rec => rec .factor

section

variable {p : Nat} (h1 : 1 ≤ p) (h5 : p ≤ 5)

include h1 h5

theorem isOperatorOf_eq (t : Token) : isOperatorOf p t = (strength t.content == p) := by
  obtain ⟨kind, value, start, stop⟩ := t
  obtain rfl | rfl | rfl | rfl | rfl : p = 1 ∨ p = 2 ∨ p = 3 ∨ p = 4 ∨ p = 5 := by omega
  all_goals cases kind <;> try rfl
  all_goals
    simp only [isOperatorOf, isOneOf, strength, Token.content, Token.isKeyword]
    cases value == .text "and" <;> cases value == .text "or" <;> rfl

theorem ruleOf_eq (rec : Recursion) : ruleOf p rec = operators (ruleOf (p + 1) rec) (isOperatorOf p) := by
  obtain rfl | rfl | rfl | rfl | rfl : p = 1 ∨ p = 2 ∨ p = 3 ∨ p = 4 ∨ p = 5 := by omega
  all_goals rfl

end

theorem operators_eq (operand : Reading Node) (isOperator : Token → Bool) (input : Input) (i : Nat) :
    operators operand isOperator input i =
      (operand >>= operatorsAfter operand isOperator (input.lexemes.size + 1)) input i := by
  rw [operators, reply_bind, reply_bind]
  cases operand input i with
  | ok left j => exact bind_ok rfl
  | fail | fault | exhausted => rfl

theorem operatorsAfter_stop {operand : Reading Node} {isOperator : Token → Bool} (hu : input.At i u)
    (ho : isOperator u = false) (n : Nat) (left : Node) :
    operatorsAfter operand isOperator n left input i = .ok left i := by
  cases n with
  | zero => rfl
  | succ n =>
    refine (bind_ok (token_at hu)).trans ?_
    rw [ho]
    rfl

/-- The loop of a level comes to an expression after some rounds: from there on it goes on with the expression as its
left operand. -/
def Chains (input : Input) (p : Nat) (e : Node) (i j : Nat) : Prop :=
  ∃ c, i + c ≤ j ∧ ∀ᶠ n in atTop, ∀ k,
    (ruleOf (p + 1) (read n) >>= operatorsAfter (ruleOf (p + 1) (read n)) (isOperatorOf p) (k + c)) input i =
      operatorsAfter (ruleOf (p + 1) (read n)) (isOperatorOf p) k e input j

namespace Chains

variable {p : Nat} {l r : Node} {op : Token}

theorem of_operand (h : Reads input (ruleOf (p + 1)) i e j) : Chains input p e i j :=
  ⟨0, h.le, h.mono fun _ hn _ => bind_ok hn⟩

theorem step (h1 : 1 ≤ p) (h5 : p ≤ 5) (h : Chains input p l i k) (hop : input.At k op) (hp : strength op.content = p)
    (hr : Reads input (ruleOf (p + 1)) (k + 1) r j) : Chains input p (.operation l op r) i j := by
  obtain ⟨c, hc, h⟩ := h
  refine ⟨c + 1, by have := hr.le; omega, ?_⟩
  filter_upwards [h, hr] with n hl hr fuel
  rw [show fuel + (c + 1) = fuel + 1 + c by omega, hl]
  refine (bind_ok (token_at hop)).trans ?_
  rw [isOperatorOf_eq h1 h5, hp, beq_self_eq_true, if_pos rfl]
  exact bind_ok hr

theorem reads (h1 : 1 ≤ p) (h5 : p ≤ 5) (h : Chains input p e i j) (hj : j ≤ input.lexemes.size) (hu : input.At j u)
    (hs : strength u.content < p) : Reads input (ruleOf p) i e j := by
  obtain ⟨c, hc, h⟩ := h
  filter_upwards [h] with n hn
  rw [ruleOf_eq h1 h5, operators_eq, show input.lexemes.size + 1 = input.lexemes.size + 1 - c + c by omega, hn]
  refine operatorsAfter_stop hu ?_ _ _
  rw [isOperatorOf_eq h1 h5]
  exact beq_false_of_ne (Nat.ne_of_lt hs)

end Chains

theorem reads_looser {p q : Nat} (h1 : 1 ≤ p) (hpq : p ≤ q) (hq : q ≤ 6) (h : Reads input (ruleOf q) i e j)
    (hj : j ≤ input.lexemes.size) (hu : input.At j u) (hs : strength u.content < p) : Reads input (ruleOf p) i e j := by
  induction q, hpq using Nat.le_induction with
  | base => exact h
  | succ q hpq ih => exact ih (by omega) ((Chains.of_operand h).reads (by omega) (by omega) hj hu (by omega))

/-- The loop over places in a collection comes to an expression after some rounds. -/
def Elements (input : Input) (e : Node) (i j : Nat) : Prop :=
  ∃ a k c, Reads input atom i a k ∧ k + c ≤ j ∧ (k = j ∨ ∃ t, input.At k t ∧ t.kind = .atSign) ∧
    ∀ᶠ n in atTop, ∀ fuel, elementsAfter (read n) (fuel + c) a input k = elementsAfter (read n) fuel e input j

namespace Elements

variable {c key : Node}

theorem of_atom (h : Reads input atom i e j) : Elements input e i j :=
  ⟨e, j, 0, h, Nat.le_refl j, .inl rfl, .of_forall fun _ _ => rfl⟩

theorem step (h : Elements input c i k) (ht : input.At k t) (hk : t.kind = .atSign)
    (hkey : Reads input atom (k + 1) key j) :
    Elements input (.element c key) i j := by
  obtain ⟨a, l, rounds, ha, hl, hsign, h⟩ := h
  refine ⟨a, l, rounds + 1, ha, by have := hkey.le; omega, .inr ?_, ?_⟩
  · rcases hsign with rfl | hsign
    · exact ⟨t, ht, hk⟩
    · exact hsign
  filter_upwards [h, hkey] with n hc hkey fuel
  rw [show fuel + (rounds + 1) = fuel + 1 + rounds by omega, hc]
  refine (bind_ok (skipKind_at ht .atSign)).trans ?_
  rw [hk]
  exact bind_ok hkey

theorem call (h : Elements input e i j) (hj : j ≤ input.lexemes.size) (hu : input.At j u) (hparen : u.kind ≠ .lparen)
    (hsign : u.kind ≠ .atSign) : Reads input call i e j := by
  obtain ⟨a, k, rounds, ha, hk, hfirst, h⟩ := h
  have hno : ∃ t, input.At k t ∧ t.kind ≠ .lparen := by
    rcases hfirst with rfl | ⟨t, ht, hsign⟩
    · exact ⟨u, hu, hparen⟩
    · exact ⟨t, ht, by rw [hsign]; decide⟩
  obtain ⟨t, ht, hkind⟩ := hno
  filter_upwards [ha, h] with n ha h
  refine (bind_ok ha).trans ((bind_ok (skipKind_at ht .lparen)).trans ?_)
  rw [beq_false_of_ne hkind]
  refine (bind_ok (a := input.lexemes.size + 1) rfl).trans ?_
  rw [show input.lexemes.size + 1 = input.lexemes.size - rounds + 1 + rounds by omega]
  refine (h _).trans ((bind_ok (skipKind_at hu .atSign)).trans ?_)
  rw [beq_false_of_ne hsign]
  rfl

end Elements

def openKinds : List Kind := [.int, .float, .string, .identifier, .lparen, .lsquare, .langle, .lcurly, .lsetbrace]

/-- A token begins an expression that is held together as said. -/
def Opens (binding : Nat) (t : Token) : Prop :=
  t.kind ∈ openKinds ∨ t.isKeyword "lambda" = true ∨ (binding ≤ 6 ∧ (t.kind = .plus ∨ t.kind = .minus)) ∨
    (binding = 0 ∧ t.isKeyword "not" = true)

namespace Opens

variable {b : Nat}

variable (h : Opens b t)
include h

theorem mono {p : Nat} (hpb : p ≤ b) : Opens p t := by
  rcases h with h | h | ⟨hb, h⟩ | ⟨hb, h⟩
  · exact .inl h
  · exact .inr (.inl h)
  · exact .inr (.inr (.inl ⟨Nat.le_trans hpb hb, h⟩))
  · exact .inr (.inr (.inr ⟨by omega, h⟩))

theorem isKeyword {other : String} (hl : "lambda" ≠ other) (hn : b = 0 → "not" ≠ other) :
    t.isKeyword other = false := by
  have kinds : ∀ k ∈ openKinds, k ≠ .keyword := by decide
  rcases h with h | h | ⟨-, h | h⟩ | ⟨hb, h⟩
  · exact isKeyword_of_kind (kinds _ h) other
  · rw [isKeyword_of_isKeyword h]
    exact beq_false_of_ne hl
  · exact isKeyword_of_kind (by rw [h]; decide) other
  · exact isKeyword_of_kind (by rw [h]; decide) other
  · rw [isKeyword_of_isKeyword h]
    exact beq_false_of_ne (hn hb)

theorem plain (hb : 1 ≤ b) : Plain t := by
  intro other hother
  have hne : "lambda" ≠ other := by
    rintro rfl
    revert hother
    decide
  exact h.isKeyword hne fun h0 => by omega

theorem unsigned (hb : 7 ≤ b) : Unsigned t := by
  have kinds : ∀ k ∈ openKinds, k ≠ .plus ∧ k ≠ .minus := by decide
  rcases h with h | h | ⟨h6, -⟩ | ⟨h0, -⟩
  · exact kinds _ h
  · exact ⟨by rw [kind_of_isKeyword h]; decide, by rw [kind_of_isKeyword h]; decide⟩
  · omega
  · omega

theorem kind_ne {kind : Kind} (hk : kind ∉ .keyword :: .plus :: .minus :: openKinds) : t.kind ≠ kind := by
  rintro rfl
  simp only [List.mem_cons, not_or] at hk
  rcases h with h | h | ⟨-, h | h⟩ | ⟨-, h⟩
  · exact hk.2.2.2 h
  · exact hk.1 (kind_of_isKeyword h)
  · exact hk.2.1 h
  · exact hk.2.2.1 h
  · exact hk.1 (kind_of_isKeyword h)

end Opens

/-- What is read of an expression at the level where it is held together. -/
inductive Parsed (input : Input) (i j : Nat) (e : Node) : Nat → Prop
  | atom : Reads input atom i e j → Parsed input i j e 9
  | elements : Elements input e i j → Parsed input i j e 8
  | call : Reads input call i e j → Parsed input i j e 7
  | factor : Reads input factor i e j → Parsed input i j e 6
  | chain {p : Nat} : 1 ≤ p → p ≤ 5 → Chains input p e i j → Parsed input i j e p
  | logic : Reads input logic i e j → Parsed input i j e 0

namespace Parsed

variable {b p : Nat} (h : Parsed input i j e b) (ht : input.At i t) (ho : Opens b t) (hj : j ≤ input.lexemes.size)
  (hu : input.At j u)

section

include h

theorem atom_of_le (hb : 9 ≤ b) : Reads input Grammar.atom i e j := by
  cases h with
  | atom h => exact h
  | elements | call | factor | logic => omega
  | chain => omega

theorem elements_of_le (hb : 8 ≤ b) : Elements input e i j := by
  cases h with
  | atom h => exact .of_atom h
  | elements h => exact h
  | call | factor | logic => omega
  | chain => omega

end

include h ht ho hj hu

/-- A sign may stand before what is held together at least like a call. -/
theorem operand (hb : 6 ≤ b) (hs : strength u.content < 6) : Reads input (fun rec => rec .factor) i e j := by
  have hkind : u.kind ≠ .lparen ∧ u.kind ≠ .atSign := by
    constructor
    all_goals
      intro hk
      simp [Token.content, hk, strength] at hs
  have of_call (hb : 7 ≤ b) (h : Reads input Grammar.call i e j) : Reads input (fun rec => rec .factor) i e j := by
    filter_upwards [eventually_succ h] with _ ⟨n, hn, h⟩
    rw [hn, factor_of_unsigned ht (ho.unsigned hb)]
    exact h
  cases h with
  | atom h => exact of_call (by decide) ((Elements.of_atom h).call hj hu hkind.1 hkind.2)
  | elements h => exact of_call (by decide) (h.call hj hu hkind.1 hkind.2)
  | call h => exact of_call (by decide) h
  | factor h => exact h.factor
  | chain => omega
  | logic => omega

/-- An expression stands at all levels up to its own, if the token that follows binds more loosely. -/
theorem reads (h1 : 1 ≤ p) (h6 : p ≤ 6) (hpb : p ≤ b) (hs : strength u.content < p) : Reads input (ruleOf p) i e j := by
  by_cases hb : 6 ≤ b
  · have hoperand : Reads input (ruleOf 6) i e j := h.operand ht ho hj hu hb (by omega)
    exact reads_looser h1 h6 (Nat.le_refl 6) hoperand hj hu hs
  · cases h with
    | chain hb1 hb5 h => exact reads_looser h1 hpb (by omega) (h.reads hb1 hb5 hj hu (by omega)) hj hu hs
    | atom | elements | call | factor | logic => omega

/-- A left operand may be followed by an operator of its own level. -/
theorem chains (h1 : 1 ≤ p) (h5 : p ≤ 5) (hpb : p ≤ b) (hs : strength u.content ≤ p) : Chains input p e i j := by
  rcases Nat.lt_or_eq_of_le hpb with hlt | rfl
  · exact .of_operand (h.reads ht ho hj hu (by omega) (by omega) hlt (by omega))
  · cases h with
    | chain _ _ h => exact h
    | atom | elements | call | factor | logic => omega

theorem whole (hs : strength u.content = 0) : Reads input (fun rec => rec .logic) i e j := by
  by_cases hb : b = 0
  · subst hb
    cases h with
    | logic h => exact h.logic
    | chain h1 => omega
  · have hrule := h.reads ht ho hj hu (Nat.le_refl 1) (by decide) (by omega) (by omega)
    filter_upwards [eventually_succ hrule] with _ ⟨n, hn, h⟩
    rw [hn, logic_of_plain ht (ho.plain (by omega))]
    exact reword_ok h _

end Parsed

end Utterance.Grammar

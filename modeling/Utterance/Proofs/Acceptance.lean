import Utterance.Proofs.Depth
import Utterance.Proofs.WindowRules

/-!
# Where expressions may end

A statement that gives a value back tries to read an expression and goes back if that fails; then it must fail in the
other input of a window, too. `Accepts` says that of a place, together with what makes it so: that what follows there
can be read as what follows an atom (`Continues`). What follows is a token that goes on with nothing, the clauses of a
comprehension, operators with their operands, the arguments of a call, or places in a collection.

An operand or an argument that follows was read as such, so that the expression which begins with it can be read as
well, unless it fails at a token that both inputs show.
-/

namespace Utterance.Grammar

open Reading List

open Token (Kind)

variable {d : Diagnostic} {input : Input} {n' : Nat} {op : Token → Bool} {ops : List (Token → Bool)}
  {p : Recursion → Reading Node}

namespace Window

variable {W : Window} {α : Type} {i j k m : Nat} {t : Token}

/-- A rule can be read from one place to another, with some bound. -/
def Reads (W : Window) (p : Recursion → Reading α) (i j : Nat) : Prop := ∃ n v, p (read n) W.left i = .ok v j

namespace Reads

variable {p : Recursion → Reading α}

variable (h : W.Reads p i j) (hp : Rising p)
include h hp

theorem large : ∃ n, ∀ m ≥ n, ∃ v, p (read m) W.left i = .ok v j := by
  obtain ⟨n, v, hv⟩ := h
  refine ⟨n, fun m hm => ⟨v, ?_⟩⟩
  rw [← hv]
  exact ((hp _ _ (read_mono hm) W.left i).resolve_left (by rw [hv]; exact fun h => by cases h)).symm

theorem ok {n : Nat} (hn : p (read n) W.left i ≠ .exhausted) : ∃ v, p (read n) W.left i = .ok v j := by
  obtain ⟨m, v, hv⟩ := h
  exact ⟨v, (hp.agree hn (by rw [hv]; exact fun h => by cases h)).trans hv⟩

theorem not_fail {n q : Nat} : p (read n) W.left i ≠ .fail d q := by
  intro hf
  obtain ⟨v, hv⟩ := h.ok hp (n := n) (by rw [hf]; exact fun h => by cases h)
  cases hf.symm.trans hv

end Reads

theorem rising_part (part : Part) : Rising fun rec => rec part := fun _ _ h => h part

theorem rising_atom : Rising atom := Composed.rising composed_atom

theorem rising_arguments : Rising (bracketed · .rparen "Expected ',' or ')'") :=
  Composed.rising (composed_bracketed trivial (by decide) _)

theorem rising_expression : Rising expression := Composed.rising (composed_expression trivial)

/-- Operators with their operands. -/
inductive Operands (W : Window) : Nat → Nat → Prop
  | done (i : Nat) : Operands W i i
  | more {i k j : Nat} {t : Token} : W.left.At i t → isOperator t = true → W.Reads (fun rec => rec .factor) (i + 1) k →
    Operands W k j → Operands W i j

theorem Operands.trans (h : W.Operands i k) (h' : W.Operands k j) : W.Operands i j := by
  induction h with
  | done => exact h'
  | more ht ho hk _ ih => exact .more ht ho hk (ih h')

def Chain (W : Window) (i j : Nat) : Prop := W.Operands i j ∧ ∃ t, W.left.At j t ∧ isOperator t = false

/-- Places in a collection. -/
inductive Elements (W : Window) : Nat → Nat → Prop
  | done {i : Nat} {t : Token} : W.left.At i t → t.kind ≠ .atSign → Elements W i i
  | more {i m k : Nat} {t : Token} : W.left.At i t → t.kind = .atSign → W.Reads atom (i + 1) m → Elements W m k →
    Elements W i k

/-- What belongs to an operand after its atom. -/
inductive Suffix (W : Window) : Nat → Nat → Prop
  | call {i k : Nat} {t : Token} : W.left.At i t → t.kind = .lparen →
    W.Reads (bracketed · .rparen "Expected ',' or ')'") (i + 1) k → Suffix W i k
  | elements {i k : Nat} {t : Token} : W.left.At i t → t.kind ≠ .lparen → Elements W i k → Suffix W i k

/-- What follows can be read as what follows an atom. -/
def Continues (W : Window) (i : Nat) : Prop := ∃ k j, W.Suffix i k ∧ W.Chain k j

theorem not_operator_of_kind (h : operatorKinds.contains t.kind = false) (hk : t.kind ≠ .keyword) :
    isOperator t = false := by
  simp only [isOperator, h, isKeyword_of_kind hk, Bool.or_self]

theorem Chain.of_continues (h : W.Continues i) : ∃ j, W.Chain i j := by
  obtain ⟨k, j, hs, hc⟩ := h
  cases hs with
  | call ht hk => exact ⟨i, .done i, _, ht, not_operator_of_kind (by rw [hk]; decide) (by rw [hk]; decide)⟩
  | elements ht _ he =>
    cases he with
    | done => exact ⟨j, hc⟩
    | more ht hk => exact ⟨i, .done i, _, ht, not_operator_of_kind (by rw [hk]; decide) (by rw [hk]; decide)⟩

theorem elementsAfter_reads (h : W.Elements i k) :
    ∃ n, ∀ m ≥ n, ∀ fuel node, W.len < i + fuel → ∃ v, elementsAfter (read m) fuel node W.left i = .ok v k := by
  induction h with
  | @done i t ht hk =>
    refine ⟨0, fun m _ fuel node _ => ⟨node, ?_⟩⟩
    cases fuel with
    | zero => rfl
    | succ fuel =>
      refine (bind_ok (skipKind_at ht .atSign)).trans ?_
      rw [beq_false_of_ne hk]
      rfl
  | @more i l k t ht hk hl _ ih =>
    obtain ⟨n₁, h₁⟩ := hl.large rising_atom
    obtain ⟨n₂, h₂⟩ := ih
    refine ⟨max n₁ n₂, fun m hm fuel node hf => ?_⟩
    obtain ⟨a, ha⟩ := h₁ m (by omega)
    have hle : i + 1 ≤ l := le_of_ok ha
    have hlt := W.lt_of_kind ht hk (by decide)
    obtain ⟨fuel, rfl⟩ : ∃ f, fuel = f + 1 := ⟨fuel - 1, by omega⟩
    obtain ⟨v, hv⟩ := h₂ m (by omega) fuel (.element node a) (by omega)
    refine ⟨v, (bind_ok (skipKind_at ht .atSign)).trans ?_⟩
    rw [hk]
    exact (bind_ok ha).trans hv

theorem factor_reads (ht : W.left.At i t) (hu : Unsigned t) (ha : W.Reads atom i m) (hs : W.Suffix m k) :
    W.Reads (fun rec => rec .factor) i k := by
  obtain ⟨n₁, h₁⟩ := ha.large rising_atom
  have hcall := fun n => factor_of_unsigned ht hu n
  cases hs with
  | call hu hk hargs =>
    obtain ⟨n₂, h₂⟩ := hargs.large rising_arguments
    obtain ⟨a, ha⟩ := h₁ (max n₁ n₂) (by omega)
    obtain ⟨args, hargs⟩ := h₂ (max n₁ n₂) (by omega)
    refine ⟨max n₁ n₂ + 1, .call a args, (hcall _).trans
      ((bind_ok ha).trans ((bind_ok (skipKind_at hu .lparen)).trans ?_))⟩
    rw [hk]
    exact bind_ok hargs
  | elements hu hk hel =>
    obtain ⟨n₂, h₂⟩ := elementsAfter_reads hel
    obtain ⟨a, ha⟩ := h₁ (max n₁ n₂) (by omega)
    obtain ⟨v, hv⟩ := h₂ (max n₁ n₂) (by omega) (W.left.lexemes.size + 1) a (by have := W.size; omega)
    refine ⟨max n₁ n₂ + 1, v, (hcall _).trans ((bind_ok ha).trans ((bind_ok (skipKind_at hu .lparen)).trans ?_))⟩
    rw [beq_false_of_ne hk]
    exact hv

theorem signed_reads (ht : W.left.At i t) (hs : t.kind = .plus ∨ t.kind = .minus)
    (h : W.Reads (fun rec => rec .factor) (i + 1) k) : W.Reads (fun rec => rec .factor) i k := by
  obtain ⟨n, v, hv⟩ := h
  refine ⟨n + 1, .signed t v, (bind_ok (token_at ht)).trans ?_⟩
  rw [if_pos (by simpa using hs)]
  exact (bind_ok (a := ()) (j := i + 1) rfl).trans (bind_ok hv)

/-- Whenever an operand is followed by all its operators, `p` can be read up to an operator that is none of `ops`. -/
def Level (W : Window) (p : Recursion → Reading Node) (ops : List (Token → Bool)) : Prop :=
  ∀ i m j, W.Reads (fun rec => rec .factor) i m → W.Chain m j →
    ∃ k, W.Reads p i k ∧ W.Chain k j ∧ ∃ t, W.left.At k t ∧ ∀ op ∈ ops, op t = false

theorem level_factor : Level W (fun rec => rec .factor) [] := by
  intro i m j hm hc
  refine ⟨m, hm, hc, ?_⟩
  obtain ⟨ho, u, hu, -⟩ := hc
  cases ho with
  | done => exact ⟨u, hu, by simp⟩
  | more ht => exact ⟨_, ht, by simp⟩

theorem ne_eof_of_isOperator (h : isOperator t = true) : t.kind ≠ .eof := by
  intro hk
  rw [not_operator_of_kind (by rw [hk]; decide) (by rw [hk]; decide)] at h
  cases h

section

variable (hp : Rising p) (hop : ∀ t, op t = true → isOperator t = true) (hl : Level W p ops)
include hp hop hl

theorem operatorsAfter_reads (hc : W.Chain m j) (ht : W.left.At m t) (hops : ∀ op ∈ ops, op t = false) :
    ∃ k, (∃ n, ∀ l ≥ n, ∀ fuel left, W.len < m + fuel → ∃ v,
      operatorsAfter (p (read l)) op fuel left W.left m = .ok v k) ∧
      W.Chain k j ∧ ∃ t, W.left.At k t ∧ ∀ op' ∈ op :: ops, op' t = false := by
  -- every round passes an operator, and there is none past the window
  induction hd : W.len - m using Nat.strongRecOn generalizing m t with
  | ind d ih =>
    cases ho : op t with
    | true =>
      obtain ⟨hrest, u, hu, hend⟩ := hc
      cases hrest with
      | done =>
        rw [ht.unique hu] at ho
        rw [hop u ho] at hend
        cases hend
      | @more _ l _ _ _ _ hl' hrest =>
        obtain ⟨q, hq, hcq, s, hs, hsops⟩ := hl (m + 1) l j hl' ⟨hrest, u, hu, hend⟩
        obtain ⟨n₁, h₁⟩ := hq.large hp
        have hle : m + 1 ≤ q := by
          obtain ⟨v, hv⟩ := h₁ n₁ (Nat.le_refl _)
          exact le_of_ok hv
        have hlt := W.lt ht (ne_eof_of_isOperator (hop t ho))
        obtain ⟨k, ⟨n₂, h₂⟩, hck, hpast⟩ := ih (W.len - q) (by omega) hcq hs hsops rfl
        refine ⟨k, ⟨max n₁ n₂, fun l hl fuel left hf => ?_⟩, hck, hpast⟩
        obtain ⟨fuel, rfl⟩ : ∃ f, fuel = f + 1 := ⟨fuel - 1, by omega⟩
        obtain ⟨right, hright⟩ := h₁ l (by omega)
        obtain ⟨v, hv⟩ := h₂ l (by omega) fuel (.operation left t right) (by omega)
        refine ⟨v, (bind_ok (token_at ht)).trans ?_⟩
        rw [ho]
        exact (bind_ok (a := ()) (j := m + 1) rfl).trans ((bind_ok hright).trans hv)
    | false =>
      refine ⟨m, ⟨0, fun l _ fuel left _ => ⟨left, ?_⟩⟩, hc, t, ht, forall_mem_cons.2 ⟨ho, hops⟩⟩
      cases fuel with
      | zero => rfl
      | succ fuel =>
        refine (bind_ok (token_at ht)).trans ?_
        rw [ho]
        rfl

theorem Level.operators : Level W (fun rec => operators (p rec) op) (op :: ops) := by
  intro i m j hm hc
  obtain ⟨q, hq, hcq, t, ht, hops⟩ := hl i m j hm hc
  obtain ⟨k, ⟨n₂, h₂⟩, hck, hpast⟩ := operatorsAfter_reads hp hop hl hcq ht hops
  obtain ⟨n₁, h₁⟩ := hq.large hp
  refine ⟨k, ?_, hck, hpast⟩
  obtain ⟨left, hleft⟩ := h₁ (max n₁ n₂) (by omega)
  obtain ⟨v, hv⟩ := h₂ (max n₁ n₂) (by omega) (W.left.lexemes.size + 1) left (by have := W.size; omega)
  exact ⟨max n₁ n₂, v, (bind_ok hleft).trans hv⟩

end

/-- An expression is read from its first operand on, as far as there are operators. -/
theorem expression_reads (ht : W.left.At i t) (hp : Plain t) (hm : W.Reads (fun rec => rec .factor) i m)
    (hc : W.Chain m j) : W.Reads expression i j := by
  have kinds (ks : List Kind) (h : ∀ k ∈ ks, operatorKinds.contains k = true) (t : Token)
      (ht : isOneOf ks t = true) : isOperator t = true := by
    rw [isOneOf, contains_iff_mem] at ht
    simp only [isOperator, h _ ht, Bool.true_or]
  have words (t : Token) (ht : (t.isKeyword "and" || t.isKeyword "or") = true) : isOperator t = true := by
    simp only [isOperator, Bool.or_assoc, ht, Bool.or_true]
  have r₁ := Rising.operators (rising_part .factor) (isOneOf [.mul, .div, .mod])
  have r₂ := r₁.operators (isOneOf [.plus, .minus])
  have r₃ := r₂.operators (isOneOf [.ampersand, .caret])
  have r₄ := r₃.operators (isOneOf [.ee, .ne, .lt, .gt, .lte, .gte])
  have l₁ := level_factor.operators (W := W) (rising_part _) (kinds [.mul, .div, .mod] (by decide))
  have l₂ := l₁.operators r₁ (kinds [.plus, .minus] (by decide))
  have l₃ := l₂.operators r₂ (kinds [.ampersand, .caret] (by decide))
  have l₄ := l₃.operators r₃ (kinds [.ee, .ne, .lt, .gt, .lte, .gte] (by decide))
  have l₅ := l₄.operators r₄ words
  obtain ⟨k, ⟨n, v, hv⟩, ⟨hrest, -⟩, u, hu, hops⟩ := l₅ i m j hm hc
  have hno : isOperator u = false := by
    simp only [forall_mem_cons, isOneOf, contains_cons, Bool.or_eq_false_iff] at hops
    simp only [isOperator, operatorKinds, contains_cons, Bool.or_eq_false_iff]
    grind
  cases hrest with
  | more hu' ho =>
    rw [hu'.unique hu, hno] at ho
    cases ho
  | done =>
    refine ⟨n + 1, v, ?_⟩
    rw [expression_of_plain ht hp, logic_of_plain ht hp]
    exact reword_ok hv _

/-- Expressions with a bound below `n` may end here: what follows can be read, and where no expression is read in one
input none is read in the other one. -/
structure Accepts (W : Window) (n j : Nat) : Prop where
  continues : W.Continues j
  fails : j ≤ W.len → ∀ k < n, ∀ d q, expression (read k) W.left j = .fail d q →
    ∃ d' q', expression (read k) W.right (j + W.shift) = .fail d' q'

/-- Operands may end here: operators with their operands may follow. -/
def AcceptsOperand (W : Window) (n j : Nat) : Prop := ∃ q, W.Operands j q ∧ W.Accepts n q

variable {n q : Nat}

theorem Accepts.mono (h : W.Accepts n j) (hn : n' ≤ n) : W.Accepts n' j :=
  ⟨h.continues, fun hj k hk => h.fails hj k (by omega)⟩

theorem AcceptsOperand.mono (h : W.AcceptsOperand n j) (hn : n' ≤ n) : W.AcceptsOperand n' j := by
  obtain ⟨q, hq, ha⟩ := h
  exact ⟨q, hq, ha.mono hn⟩

theorem Accepts.operand (h : W.Accepts n j) : W.AcceptsOperand n j := ⟨j, .done j, h⟩

theorem two_le (ht : W.left.At j t) (hp : Plain t) (h : expression (read n) W.left j = .fail d q) : ∃ k, n = k + 2 := by
  rcases Nat.lt_or_ge n 2 with hn | hn
  · rw [expression_shallow ht hp hn] at h
    cases h
  · exact ⟨n - 2, by omega⟩

theorem Near.starts {t t' : Token} (h : Near t t') (hs : starts t = false) : starts t' = false := by
  rcases h with h | ⟨-, h⟩
  · have hword : t'.isKeyword = t.isKeyword := funext (Near.isKeyword (.inl h))
    rw [← hs, Grammar.starts, Grammar.starts, h.kind, hword]
  · refine starts_of_halts (halts_of_kind ?_)
    rcases h with h | h <;> rw [h] <;> decide

theorem fails_of_not_starts (ht : W.left.At j t) (hs : starts t = false) (hj : j ≤ W.len)
    (h : expression (read n) W.left j = .fail d q) :
    ∃ d' q', expression (read n) W.right (j + W.shift) = .fail d' q' := by
  obtain ⟨k, rfl⟩ := two_le ht (plain_of_not_starts hs) h
  obtain ⟨t', ht', hnear⟩ := W.near ht hj
  have hs' := Near.starts hnear hs
  obtain ⟨d, hd⟩ := atom_fails ht' hs' (read k)
  obtain ⟨d', hd'⟩ := expression_fails ht' (plain_of_not_starts hs') (unsigned_of_not_starts hs') hd
  exact ⟨d', _, hd'⟩

theorem accepts_halt (ht : W.left.At j t) (hh : halts t = true) : W.Accepts n j := by
  have hs := starts_of_halts hh
  simp only [halts, Bool.and_eq_true, Bool.not_eq_true', bne_iff_ne, ne_eq] at hh
  refine ⟨⟨j, j, .elements ht ?_ (.done ht hh.2), .done j, t, ht, hh.1.2⟩, fun hj _ _ _ _ =>
    fails_of_not_starts ht hs hj⟩
  intro hk
  simp [starts, hk, startKinds] at hs

theorem cycle_fails {u v : Token} (ht : input.At i t) (hk : t.isKeyword "cycle" = true)
    (hu : input.At (i + 1) u) (hku : u.kind = .identifier) (hv : input.At (i + 2) v) (hkv : v.isKeyword "in" = true)
    (rec : Recursion) : ∃ d, atom rec input i = .fail d (i + 2) := by
  obtain ⟨d, hd⟩ := refuse_at (α := Unit) hv "Expected 'from'"
  have hword (word : String) : t.isKeyword word = ("cycle" == word) := isKeyword_of_isKeyword hk word
  have hfrom : expectWord "from" "Expected 'from'" input (i + 2) = .fail d (i + 2) := by
    refine (bind_ok (isWord_at hv "from")).trans ?_
    rw [isKeyword_of_isKeyword hkv]
    exact hd
  have hcounting : counting rec input (i + 1) = .fail d (i + 2) := by
    have hid : identifier "Expected identifier" input (i + 1) = .ok u (i + 2) := by
      refine (bind_ok (isKind_at hu .identifier)).trans ?_
      rw [hku]
      exact bind_ok (token_at hu)
    exact (bind_ok hid).trans (bind_fail hfrom)
  have hcycle : cycle rec input i = .fail d (i + 2) := by
    have hexpect : expectWord "cycle" "Expected 'cycle'" input i = .ok () (i + 1) := by
      refine (bind_ok (isWord_at ht "cycle")).trans ?_
      rw [hk]
      rfl
    refine (bind_ok hexpect).trans ((bind_ok (skipWord_at hu "each")).trans ?_)
    rw [isKeyword_of_kind (by rw [hku]; decide)]
    exact hcounting
  refine ⟨d, (bind_ok (token_at ht)).trans ?_⟩
  rw [kind_of_isKeyword hk]
  simp only [hword]
  exact hcycle

theorem accepts_clause {u v : Token} (ht : W.left.At j t) (hk : t.isKeyword "cycle" = true) (hu : W.left.At (j + 1) u)
    (hku : u.kind = .identifier) (hv : W.left.At (j + 2) v) (hkv : v.isKeyword "in" = true) :
    W.Accepts n j := by
  have hkind := kind_of_isKeyword hk
  have hno : isOperator t = false := by
    rw [isOperator, hkind, isKeyword_of_isKeyword hk, isKeyword_of_isKeyword hk]
    decide
  refine ⟨⟨j, j, .elements ht (by rw [hkind]; decide) (.done ht (by rw [hkind]; decide)), .done j, t, ht, hno⟩, ?_⟩
  intro hj m _ d q hf
  have plain {t : Token} (hk : t.isKeyword "cycle" = true) : Plain t ∧ Unsigned t := by
    refine ⟨fun word hw => ?_, by rw [Unsigned, kind_of_isKeyword hk]; decide⟩
    rw [isKeyword_of_isKeyword hk]
    revert word
    decide
  obtain ⟨k, rfl⟩ := two_le ht (plain hk).1 hf
  obtain ⟨t', ht', hnt⟩ := W.near ht hj
  obtain ⟨u', hu', hau⟩ := W.alike hu (W.lt_of_kind hu hku (by decide))
  obtain ⟨v', hv', hav⟩ := W.alike hv (W.lt_of_word hv hkv)
  have hk' : t'.isKeyword "cycle" = true := (hnt.isKeyword _).trans hk
  rw [Nat.add_right_comm] at hu' hv'
  obtain ⟨d', hd'⟩ := cycle_fails ht' hk' hu' (hau.kind.symm.trans hku) hv'
    ((Near.isKeyword (.inl hav) _).trans hkv) (read k)
  obtain ⟨d'', hd''⟩ := expression_fails ht' (plain hk').1 (plain hk').2 hd'
  exact ⟨d'', _, hd''⟩

theorem not_starts_of_isOperator (h : isOperator t = true) (hs : ¬(t.kind = .plus ∨ t.kind = .minus)) :
    starts t = false := by
  simp only [isOperator, Bool.or_eq_true] at h
  rcases h with (h | h) | h
  · have hk : ∀ k ∈ operatorKinds, k ≠ .keyword ∧ (k = .plus ∨ k = .minus ∨ startKinds.contains k = false) := by decide
    obtain ⟨hkey, hk⟩ := hk _ (contains_iff_mem.1 h)
    rw [Grammar.starts, (hk.resolve_left fun h => hs (.inl h)).resolve_left fun h => hs (.inr h), Bool.false_or]
    exact any_eq_false.2 fun word _ => by simp [isKeyword_of_kind hkey]
  all_goals
    simp only [Grammar.starts, kind_of_isKeyword h, funext (isKeyword_of_isKeyword h)]
    decide

theorem accepts_operands (h : W.Operands j q) (hq : W.Accepts n q) : W.Accepts n j := by
  cases h with
  | done => exact hq
  | @more _ k _ t ht ho hk hrest =>
    obtain ⟨l, hl⟩ := Chain.of_continues hq.continues
    have hchain : W.Chain k l := ⟨hrest.trans hl.1, hl.2⟩
    have hkind {k : Kind} (hk : operatorKinds.contains k = false) (hw : k ≠ .keyword) : t.kind ≠ k := by
      rintro rfl
      rw [not_operator_of_kind hk hw] at ho
      cases ho
    refine ⟨⟨j, l, .elements ht (hkind (by decide) (by decide)) (.done ht (hkind (by decide) (by decide))),
      .more ht ho hk hchain.1, hchain.2⟩, fun hj m _ d q hf => ?_⟩
    by_cases hsign : t.kind = .plus ∨ t.kind = .minus
    · -- a sign with its operand was read, so that an expression can be read from the sign on
      have hp : Plain t := fun word _ => isKeyword_of_kind (by rcases hsign with h | h <;> rw [h] <;> decide) word
      exact absurd hf ((expression_reads ht hp (signed_reads ht hsign hk) hchain).not_fail rising_expression)
    · exact fails_of_not_starts ht (not_starts_of_isOperator ho hsign) hj hf

theorem AcceptsOperand.accepts (h : W.AcceptsOperand n j) : W.Accepts n j := by
  obtain ⟨q, hq, ha⟩ := h
  exact accepts_operands hq ha

theorem AcceptsOperand.of_operands (h : W.Operands j q) (hq : W.AcceptsOperand n q) : W.AcceptsOperand n j := by
  obtain ⟨r, hr, ha⟩ := hq
  exact ⟨r, h.trans hr, ha⟩

theorem accepts_elements (h : W.Elements i k) (hk : W.AcceptsOperand n k) : W.Accepts n i := by
  cases h with
  | done => exact hk.accepts
  | @more _ m _ t ht hat hm hrest =>
    obtain ⟨l, hl⟩ := Chain.of_continues hk.accepts.continues
    refine ⟨⟨k, l, .elements ht (by rw [hat]; decide) (.more ht hat hm hrest), hl⟩, fun hi _ _ _ _ => ?_⟩
    refine fails_of_not_starts ht ?_ hi
    rw [Grammar.starts, hat]
    exact Bool.or_eq_false_iff.2 ⟨by decide, any_eq_false.2 fun word _ => by simp [isKeyword_of_kind, hat]⟩

theorem parenthesised_fails {rec : Recursion} (ht : input.At i t) (hk : t.kind = .lparen)
    (h : (∃ d, rec .logic input (i + 1) = .fail d q) ∨
      ∃ v u, rec .logic input (i + 1) = .ok v q ∧ input.At q u ∧ u.kind ≠ .rparen) :
    ∃ d', atom rec input i = .fail d' q := by
  have hatom : atom rec input i = (rec .logic >>= fun n => do expectKind .rparen "Expected ')'"; return n)
      input (i + 1) := by
    refine (bind_ok (token_at ht)).trans ?_
    rw [hk]
    exact bind_ok (hk ▸ expectKind_at ht _)
  rw [hatom]
  rcases h with ⟨d, h⟩ | ⟨v, u, h, hu, hne⟩
  · exact ⟨d, bind_fail h⟩
  · obtain ⟨d', hd'⟩ := refuse_at (α := Unit) hu "Expected ')'"
    refine ⟨d', (bind_ok h).trans (bind_fail ((bind_ok (isKind_at hu .rparen)).trans ?_))⟩
    rw [beq_false_of_ne hne]
    exact hd'

theorem accepts_call (ht : W.left.At j t) (hk : t.kind = .lparen)
    (hargs : W.Reads (bracketed · .rparen "Expected ',' or ')'") (j + 1) k) (hq : W.AcceptsOperand n k)
    (ih : ∀ m < n, W.Copies Same (W.Accepts m) (read m .logic) (read m .logic)) : W.Accepts n j := by
  obtain ⟨l, hl⟩ := Chain.of_continues hq.accepts.continues
  refine ⟨⟨k, l, .call ht hk hargs, hl⟩, fun hj m hm d q hf => ?_⟩
  have plain {t : Token} (hk : t.kind = .lparen) : Plain t ∧ Unsigned t :=
    ⟨fun word _ => isKeyword_of_kind (by rw [hk]; decide) word, by rw [Unsigned, hk]; decide⟩
  obtain ⟨m, rfl⟩ := two_le ht (plain hk).1 hf
  obtain ⟨t', ht', hat⟩ := W.alike ht (W.lt_of_kind ht hk (by decide))
  have hk' : t'.kind = .lparen := hat.kind.symm.trans hk
  -- in the other input, it is enough that the expression in parentheses fails
  suffices h : ∃ q, (∃ d, read m .logic W.right (j + W.shift + 1) = .fail d q) ∨
      ∃ v u, read m .logic W.right (j + W.shift + 1) = .ok v q ∧ W.right.At q u ∧ u.kind ≠ .rparen by
    obtain ⟨q, h⟩ := h
    obtain ⟨d', hd'⟩ := parenthesised_fails ht' hk' h
    obtain ⟨d'', hd''⟩ := expression_fails ht' (plain hk').1 (plain hk').2 hd'
    exact ⟨d'', q, hd''⟩
  have hdeep : read m .logic W.left (j + 1) ≠ .exhausted := by
    intro h
    refine absurd (hf.symm.trans (expression_exhausted ht (plain hk).1 (plain hk).2 ?_)) fun h => by cases h
    refine (bind_ok (token_at ht)).trans ?_
    rw [hk]
    exact (bind_ok (hk ▸ expectKind_at ht _)).trans (bind_exhausted h)
  have hlt := W.lt_of_kind ht hk (by decide)
  rw [Nat.add_right_comm]
  obtain ⟨n₀, args, hargs⟩ := hargs
  obtain ⟨b, i, hb, hargs⟩ := bind_elim hargs
  obtain ⟨u, hu, rfl, rfl⟩ := skipKind_elim hb
  split at hargs
  · -- no arguments: nothing begins at the closing parenthesis
    next hclose =>
    have hs : starts u = false := starts_of_halts (halts_of_kind (by rw [eq_of_beq hclose]; decide))
    have hp := plain_of_not_starts hs
    have hfail : ∃ d q, expression (read m) W.left (j + 1) = .fail d q := by
      rcases Nat.lt_or_ge m 2 with hm2 | hm2
      · rw [← expression_of_plain hu hp, expression_shallow hu hp hm2] at hdeep
        exact absurd rfl hdeep
      · obtain ⟨m, rfl⟩ : ∃ l, m = l + 2 := ⟨m - 2, by omega⟩
        obtain ⟨d, hd⟩ := atom_fails hu hs (read m)
        obtain ⟨d', hd'⟩ := expression_fails hu hp (unsigned_of_not_starts hs) hd
        exact ⟨d', _, hd'⟩
    obtain ⟨d, q, hd⟩ := hfail
    obtain ⟨d', q', hd'⟩ := fails_of_not_starts hu hs hlt hd
    obtain ⟨u', hu', hnear⟩ := W.near hu hlt
    rw [expression_of_plain hu' (plain_of_not_starts (Near.starts hnear hs))] at hd'
    exact ⟨q', .inl ⟨d', hd'⟩⟩
  · obtain ⟨items, i, hitems, hargs⟩ := bind_elim hargs
    obtain ⟨first, r, hfirst, hitems⟩ := bind_elim hitems
    obtain ⟨more, i', hmore, hitems⟩ := bind_elim hitems
    cases hitems
    obtain ⟨v, hv⟩ := Reads.ok (p := fun rec => rec .logic) ⟨n₀, first, hfirst⟩ (rising_part .logic) hdeep
    rcases many_elim (skips_kind (by decide)) hmore with rfl | ⟨u, -, -, hu, hcomma, -⟩
    · -- one argument: the parentheses are read as an atom
      obtain ⟨_, _, hclose, hargs⟩ := bind_elim hargs
      cases hargs
      have hatom : W.Reads atom j k := by
        obtain ⟨rfl, w, hw, hkw⟩ := expectKind_elim hclose
        refine ⟨m, v, (bind_ok (token_at ht)).trans ?_⟩
        rw [hk]
        exact (bind_ok (hk ▸ expectKind_at ht _)).trans ((bind_ok hv).trans (bind_ok (hkw ▸ expectKind_at hw _)))
      obtain ⟨k', l', hs, hc⟩ := hq.accepts.continues
      have := expression_reads ht (plain hk).1 (factor_reads ht (plain hk).2 hatom hs) hc
      exact absurd hf (this.not_fail rising_expression)
    · -- several arguments: the closing parenthesis is missed after the first one
      have hcomma := eq_of_beq hcomma
      have ha : W.Accepts m r := accepts_halt hu (halts_of_kind (by rw [hcomma]; decide))
      obtain ⟨-, hr, v', hv', -⟩ := ih m (by omega) (j + 1) (Nat.zero_le _) hlt v r hv ha
      obtain ⟨u', hu', hau⟩ := W.alike hu (W.lt_of_kind hu hcomma (by decide))
      exact ⟨_, .inr ⟨v', u', hv', hu', by rw [← hau.kind, hcomma]; decide⟩⟩

end Window

end Utterance.Grammar

import Utterance.Grammar.Rules

/-!
# Readings at a token

What the small readings do where a token stands, and that no statement can be read where a token stands that begins
none (`read_statement_fails`).
-/

namespace Utterance.Grammar

open Reading

open Token (Kind)

variable {d : Diagnostic} {n : Nat} {u : Unit} {word : String}

variable {α β : Type} {input : Input} {i j : Nat} {t : Token}

def Input.At (input : Input) (i : Nat) (t : Token) : Prop := input.lexemes[i]?.getD input.last = .token t

theorem isKeyword_of_kind (h : t.kind ≠ .keyword) (word : String) : t.isKeyword word = false := by
  simp [Token.isKeyword, h]

theorem kind_of_isKeyword (h : t.isKeyword word = true) : t.kind = .keyword := by
  simp only [Token.isKeyword, Bool.and_eq_true, beq_iff_eq] at h
  exact h.1

theorem value_of_isKeyword (h : t.isKeyword word = true) : t.value = .text word := by
  simp only [Token.isKeyword, Bool.and_eq_true, beq_iff_eq] at h
  cases hv : t.value with
  | text s => rw [hv] at h; exact congrArg Scalar.text (eq_of_beq h.2)
  | _ => rw [hv] at h; cases h.2

theorem isKeyword_of_isKeyword (h : t.isKeyword word = true) (other : String) :
    t.isKeyword other = (word == other) := by
  rw [Token.isKeyword, kind_of_isKeyword h, value_of_isKeyword h]
  rfl

theorem Input.At.unique {u : Token} (h : input.At i t) (h' : input.At i u) : t = u := by
  cases h.symm.trans h'
  rfl

namespace Reading

theorem reply_bind (p : Reading α) (f : α → Reading β) (input : Input) (i : Nat) :
    (p >>= f) input i =
      match p input i with
      | .ok a j => f a input j
      | .fail d j => .fail d j
      | .fault e => .fault e
      | .exhausted => .exhausted := by
  change (andThen f input (p.run input i)).1 = _
  unfold reply
  obtain ⟨_ | _ | _ | _, n⟩ := p.run input i <;> rfl

theorem bind_pure_bind {γ : Type} (p : Reading α) (g : α → γ) (f : γ → Reading β) :
    ((p >>= fun a => pure (g a)) >>= f) = p >>= fun a => f (g a) := by
  have hrun (input : Input) (i : Nat) : ((p >>= fun a => pure (g a)) >>= f).run input i =
      (p >>= fun a => f (g a)).run input i := by
    change andThen f input (andThen _ input (p.run input i)) = andThen _ input (p.run input i)
    obtain ⟨_ | _ | _ | _, n⟩ := p.run input i <;> rfl
  generalize ((p >>= fun a => pure (g a)) >>= f) = q at hrun ⊢
  cases q
  congr
  exact funext fun input => funext (hrun input)

theorem reply_reword (p : Reading α) (details : String) (input : Input) (i : Nat) :
    reword p details input i =
      match p input i with
      | .fail d j => if i = j then refuse details input j else .fail d j
      | reply => reply := by
  have hp := p.agrees input i
  unfold reply reword
  dsimp only
  generalize p.run input i = r at hp ⊢
  obtain ⟨_ | ⟨d, j⟩ | _ | _, n⟩ := r
  · rfl
  · obtain rfl : j = i + n := hp
    cases n with
    | zero => exact (if_pos rfl).symm
    | succ n => exact (if_neg (by omega)).symm
  · rfl
  · rfl

theorem reply_attempt (p : Reading α) (input : Input) (i : Nat) :
    attempt p input i =
      match p input i with
      | .ok a j => .ok (.ok a) j
      | .fail _ j => .ok (.error (j - i)) i
      | .fault f => .fault f
      | .exhausted => .exhausted := by
  have hp := p.agrees input i
  unfold reply attempt
  dsimp only
  generalize p.run input i = r at hp ⊢
  obtain ⟨_ | ⟨d, j⟩ | _ | _, n⟩ := r
  · rfl
  · obtain rfl : j = i + n := hp
    dsimp only
    rw [Nat.add_sub_cancel, Nat.add_sub_cancel_left]
  · rfl
  · rfl

variable {p : Reading α} {f : α → Reading β} {kind : Kind}

theorem le_of_ok {a : α} (h : p input i = .ok a j) : i ≤ j := by
  have hp := p.agrees input i
  unfold reply at h
  generalize p.run input i = r at hp h
  obtain ⟨r, n⟩ := r
  obtain rfl : r = .ok a j := h
  exact hp ▸ Nat.le_add_right i n

theorem bind_ok {a : α} (h : p input i = .ok a j) : (p >>= f) input i = f a input j := by
  rw [reply_bind, h]

theorem current_eq {x : Lexeme} (h : input.lexemes[i]?.getD input.last = x) : current input i = .ok x i :=
  congrArg (Reply.ok · i) h

section

variable (h : input.At i t)
include h

theorem current_at : current input i = .ok (.token t) i := current_eq h

theorem tokenFor_at (property : String) : tokenFor property input i = .ok t i :=
  bind_ok (current_at h)

theorem token_at : token input i = .ok t i := tokenFor_at h _

theorem start_at : start input i = .ok t.start i := bind_ok (current_at h)

theorem stop_at : stop input i = .ok t.stop i := bind_ok (current_at h)

end

theorem start_eq (input : Input) (i : Nat) : ∃ p, start input i = .ok p i := by
  cases h : input.lexemes[i]?.getD input.last with
  | token t => exact ⟨t.start, start_at h⟩
  | refused d =>
    exact ⟨d.start.getD default, bind_ok (current_eq h)⟩

theorem stop_eq (input : Input) (i : Nat) : ∃ p, stop input i = .ok p i := by
  cases h : input.lexemes[i]?.getD input.last with
  | token t => exact ⟨t.stop, stop_at h⟩
  | refused d =>
    exact ⟨d.stop.getD default, bind_ok (current_eq h)⟩

section

variable (h : input.At i t)
include h

theorem isKind_at (kind : Kind) : isKind kind input i = .ok (t.kind == kind) i :=
  bind_ok (token_at h)

theorem isWord_at (word : String) : isWord word input i = .ok (t.isKeyword word) i :=
  bind_ok (tokenFor_at h _)

theorem skipKind_at (kind : Kind) :
    skipKind kind input i = .ok (t.kind == kind) (if t.kind == kind then i + 1 else i) := by
  refine (bind_ok (isKind_at h kind)).trans ?_
  cases t.kind == kind <;> rfl

theorem skipWord_at (word : String) :
    skipWord word input i = .ok (t.isKeyword word) (if t.isKeyword word then i + 1 else i) := by
  refine (bind_ok (isWord_at h word)).trans ?_
  cases t.isKeyword word <;> rfl

theorem expectKind_at (details : String) : expectKind t.kind details input i = .ok () (i + 1) := by
  refine (bind_ok (isKind_at h t.kind)).trans ?_
  rw [beq_self_eq_true]
  rfl

theorem skipAll_none (hk : t.kind ≠ kind) (n : Nat) : skipAll kind n input i = .ok 0 i := by
  cases n with
  | zero => rfl
  | succ n =>
    refine (bind_ok (skipKind_at h kind)).trans ?_
    rw [beq_false_of_ne hk]
    rfl

theorem newlines_none (hk : t.kind ≠ .newline) : newlines input i = .ok 0 i := skipAll_none h hk _

theorem newlines_one (hk : t.kind = .newline) {t' : Token} (h' : input.At (i + 1) t')
    (hk' : t'.kind ≠ .newline) : newlines input i = .ok 1 (i + 1) := by
  refine (bind_ok (skipKind_at h .newline)).trans ?_
  rw [hk]
  exact bind_ok (skipAll_none h' hk' _)

end

theorem bind_fail (h : p input i = .fail d j) : (p >>= f) input i = .fail d j := by
  rw [reply_bind, h]

theorem refuse_at (h : input.At i t) (details : String) : ∃ d, (refuse details : Reading α) input i = .fail d i := by
  refine ⟨.invalidSyntax t.start t.stop details, ?_⟩
  refine (bind_ok (start_at h)).trans ?_
  exact bind_ok (stop_at h)

theorem reword_ok {a : α} (h : p input i = .ok a j) (details : String) : reword p details input i = .ok a j := by
  rw [reply_reword, h]

theorem reword_fail (ht : input.At i t) (h : p input i = .fail d j) (details : String) :
    ∃ d', reword p details input i = .fail d' j := by
  rw [reply_reword, h]
  dsimp only
  split
  · next hij =>
    subst hij
    exact refuse_at ht details
  · exact ⟨d, rfl⟩

theorem reword_exhausted (h : p input i = .exhausted) (details : String) : reword p details input i = .exhausted := by
  rw [reply_reword, h]

theorem bind_exhausted (h : p input i = .exhausted) : (p >>= f) input i = .exhausted := by
  rw [reply_bind, h]

theorem bind_elim {b : β} (h : (p >>= f) input i = .ok b j) : ∃ a k, p input i = .ok a k ∧ f a input k = .ok b j := by
  cases hp : p input i with
  | ok a k => exact ⟨a, k, rfl, by rwa [reply_bind, hp] at h⟩
  | fail | fault | exhausted => rw [reply_bind, hp] at h; cases h

theorem tokenFor_elim {property : String} (h : tokenFor property input i = .ok t j) : j = i ∧ input.At i t := by
  obtain ⟨x, k, hx, h⟩ := bind_elim h
  cases hx
  cases hl : input.lexemes[i]?.getD input.last with
  | token u => rw [hl] at h; cases h; exact ⟨rfl, hl⟩
  | refused d => rw [hl] at h; cases h

theorem token_elim (h : token input i = .ok t j) : j = i ∧ input.At i t := tokenFor_elim h

variable {b : Bool} {details : String} {c : Nat}

theorem isKind_elim (h : isKind kind input i = .ok b j) : j = i ∧ ∃ t, input.At i t ∧ b = (t.kind == kind) := by
  obtain ⟨t, k, ht, h'⟩ := bind_elim h
  obtain ⟨rfl, ht⟩ := token_elim ht
  cases h'
  exact ⟨rfl, t, ht, rfl⟩

theorem isWord_elim (h : isWord word input i = .ok b j) : j = i ∧ ∃ t, input.At i t ∧ b = t.isKeyword word := by
  obtain ⟨t, k, ht, h'⟩ := bind_elim h
  obtain ⟨rfl, ht⟩ := tokenFor_elim ht
  cases h'
  exact ⟨rfl, t, ht, rfl⟩

theorem expectKind_elim (h : expectKind kind details input i = .ok u j) :
    j = i + 1 ∧ ∃ t, input.At i t ∧ t.kind = kind := by
  obtain ⟨b, k, hb, h⟩ := bind_elim h
  obtain ⟨rfl, t, ht, rfl⟩ := isKind_elim hb
  split at h
  · next hk =>
    cases h
    exact ⟨rfl, t, ht, eq_of_beq hk⟩
  · obtain ⟨d, hd⟩ := refuse_at (α := Unit) ht details
    rw [hd] at h
    cases h

theorem expectWord_elim (h : expectWord word details input i = .ok u j) :
    j = i + 1 ∧ ∃ t, input.At i t ∧ t.isKeyword word = true := by
  obtain ⟨b, k, hb, h⟩ := bind_elim h
  obtain ⟨rfl, t, ht, rfl⟩ := isWord_elim hb
  split at h
  · next hk =>
    cases h
    exact ⟨rfl, t, ht, hk⟩
  · obtain ⟨d, hd⟩ := refuse_at (α := Unit) ht details
    rw [hd] at h
    cases h

theorem identifier_elim (h : identifier details input i = .ok t j) :
    j = i + 1 ∧ input.At i t ∧ t.kind = .identifier := by
  obtain ⟨b, k, hb, h⟩ := bind_elim h
  obtain ⟨rfl, u, hu, rfl⟩ := isKind_elim hb
  split at h
  · next hk =>
    obtain ⟨v, m, hv, h'⟩ := bind_elim h
    obtain ⟨rfl, hv⟩ := token_elim hv
    cases h'
    cases hu.symm.trans hv
    exact ⟨rfl, hv, eq_of_beq hk⟩
  · obtain ⟨d, hd⟩ := refuse_at (α := Token) hu details
    rw [hd] at h
    cases h

theorem skipKind_elim (h : skipKind kind input i = .ok b j) :
    ∃ t, input.At i t ∧ b = (t.kind == kind) ∧ j = if b then i + 1 else i := by
  obtain ⟨c, k, hc, h'⟩ := bind_elim h
  obtain ⟨rfl, t, ht, rfl⟩ := isKind_elim hc
  rw [skipKind_at ht] at h
  cases h
  exact ⟨t, ht, rfl, rfl⟩

theorem skipWord_elim (h : skipWord word input i = .ok b j) :
    ∃ t, input.At i t ∧ b = t.isKeyword word ∧ j = if b then i + 1 else i := by
  obtain ⟨c, k, hc, h'⟩ := bind_elim h
  obtain ⟨rfl, t, ht, rfl⟩ := isWord_elim hc
  rw [skipWord_at ht] at h
  cases h
  exact ⟨t, ht, rfl, rfl⟩

theorem skipAll_elim (h : skipAll kind n input i = .ok c j) : (c = 0 ∧ j = i)
    ∨ (∃ t, input.At i t ∧ t.kind = kind) ∧ 0 < c := by
  cases n with
  | zero =>
    cases h
    exact .inl ⟨rfl, rfl⟩
  | succ n =>
    obtain ⟨b, k, hb, h⟩ := bind_elim h
    obtain ⟨t, ht, rfl, rfl⟩ := skipKind_elim hb
    split at h
    · next hk =>
      obtain ⟨m, k, -, h⟩ := bind_elim h
      cases h
      exact .inr ⟨⟨t, ht, eq_of_beq hk⟩, Nat.succ_pos m⟩
    · cases h
      exact .inl ⟨rfl, rfl⟩

theorem skipAll_run (h : skipAll kind n input i = .ok c j) :
    j = i + c ∧ ∀ k < c, ∃ t, input.At (i + k) t ∧ t.kind = kind := by
  induction n generalizing i c with
  | zero =>
    cases h
    exact ⟨rfl, fun k hk => absurd hk (Nat.not_lt_zero k)⟩
  | succ n ih =>
    obtain ⟨b, k, hb, h⟩ := bind_elim h
    obtain ⟨t, ht, rfl, rfl⟩ := skipKind_elim hb
    split at h
    · next hk =>
      obtain ⟨m, k, hm, h⟩ := bind_elim h
      cases h
      obtain ⟨rfl, hall⟩ := ih hm
      refine ⟨by omega, fun l hl => ?_⟩
      cases l with
      | zero => exact ⟨t, ht, eq_of_beq hk⟩
      | succ l =>
        obtain ⟨u, hu, hku⟩ := hall l (by omega)
        exact ⟨u, by rwa [Nat.add_assoc, Nat.add_comm 1] at hu, hku⟩
    · cases h
      exact ⟨rfl, fun k hk => absurd hk (Nat.not_lt_zero k)⟩

theorem newlines_run (h : newlines input i = .ok c j) :
    j = i + c ∧ ∀ k < c, ∃ t, input.At (i + k) t ∧ t.kind = .newline := by
  obtain ⟨n, k, hn, h⟩ := bind_elim h
  cases hn
  exact skipAll_run h

theorem newlines_elim (h : newlines input i = .ok c j) : (c = 0 ∧ j = i)
    ∨ (∃ t, input.At i t ∧ t.kind = .newline) ∧ 0 < c := by
  obtain ⟨n, k, hn, h⟩ := bind_elim h
  cases hn
  exact skipAll_elim h

end Reading

def startKinds : List Kind :=
  [.int, .float, .string, .regex, .identifier, .lparen, .lsquare, .langle, .lcurly, .lsetbrace, .plus, .minus]

def startWords : List String :=
  ["not", "true", "false", "when", "cycle", "as long as", "repeat while", "make function", "lambda", "attempt", "check",
    "put", "keep", "show", "bring", "share", "give", "cut", "skip"]

def starts (t : Token) : Bool := startKinds.contains t.kind || startWords.any t.isKeyword

theorem kind_of_starts (hs : starts t = false) {kind : Kind} (hk : kind ∈ startKinds) : t.kind ≠ kind := by
  rintro rfl
  simp [starts, hk] at hs

theorem word_of_starts (hs : starts t = false) (hw : word ∈ startWords) : t.isKeyword word = false := by
  rw [starts, Bool.or_eq_false_iff, List.any_eq_false] at hs
  simpa using hs.2 word hw

theorem atom_fails (ht : input.At i t) (hs : starts t = false) (rec : Recursion) :
    ∃ d, atom rec input i = .fail d i := by
  obtain ⟨d, hd⟩ := refuse_at (α := Node) ht
    ("Expected int, float, string, identifier, 'true', 'false', '+', '-', '(', '[', '<', 'when', 'cycle', " ++
      "'as long as', 'repeat while', 'make function', 'lambda', 'attempt', or 'check'")
  have hw : ∀ word ∈ startWords, t.isKeyword word = false := fun word => word_of_starts hs
  refine ⟨d, (bind_ok (token_at ht)).trans ?_⟩
  simp only [hw "true" (by decide), hw "false" (by decide), hw "when" (by decide), hw "cycle" (by decide),
    hw "as long as" (by decide), hw "repeat while" (by decide), hw "make function" (by decide),
    hw "lambda" (by decide), hw "attempt" (by decide), hw "check" (by decide), Bool.false_eq_true, if_false]
  cases hkind : t.kind
  all_goals first | exact hd | exact absurd hkind (kind_of_starts hs (by decide))

section

variable {operand : Reading Node}

theorem operators_fail (isOperator : Token → Bool) (h : operand input i = .fail d j) :
    operators operand isOperator input i = .fail d j :=
  bind_fail h

theorem operators_exhausted (isOperator : Token → Bool) (h : operand input i = .exhausted) :
    operators operand isOperator input i = .exhausted :=
  bind_exhausted h

/-- No operator is looked for where the first operand is not read. -/
theorem chain_exhausted {rec : Recursion} (isOperator : Token → Bool) (h : rec .factor input i = .exhausted) :
    operators (comparison rec) isOperator input i = .exhausted :=
  operators_exhausted _ (operators_exhausted _ (operators_exhausted _
    (operators_exhausted _ (operators_exhausted _ h))))

/-- A token that begins no assignment, output or negation. -/
def Plain (t : Token) : Prop := ∀ word ∈ ["put", "keep", "show", "not"], t.isKeyword word = false

def Unsigned (t : Token) : Prop := t.kind ≠ .plus ∧ t.kind ≠ .minus

variable (ht : input.At i t)
include ht

theorem expression_of_plain (hp : Plain t) (n : Nat) : expression (read n) input i = read n .logic input i := by
  have noSkip : ∀ word ∈ ["put", "keep", "show", "not"], skipWord word input i = .ok false i := fun word hw => by
    rw [skipWord_at ht, hp word hw]
    rfl
  exact (bind_ok (noSkip "put" (by decide))).trans ((bind_ok (noSkip "keep" (by decide))).trans
    (bind_ok (noSkip "show" (by decide))))

theorem logic_of_plain (hp : Plain t) (n : Nat) : read (n + 1) .logic input i =
    reword (operators (comparison (read n)) fun t => t.isKeyword "and" || t.isKeyword "or")
      "Expected value, identifier, 'not', or expression" input i := by
  refine (bind_ok (isWord_at ht "not")).trans ?_
  rw [hp "not" (by decide)]
  rfl

theorem factor_of_unsigned (hu : Unsigned t) (n : Nat) : read (n + 1) .factor input i = call (read n) input i := by
  refine (bind_ok (token_at ht)).trans ?_
  rw [if_neg (by simp [hu.1, hu.2])]

theorem expression_fails (hp : Plain t) (hu : Unsigned t)
    (h : atom (read n) input i = .fail d j) : ∃ d', expression (read (n + 2)) input i = .fail d' j := by
  rw [expression_of_plain ht hp, logic_of_plain ht hp]
  have hfactor : read (n + 1) .factor input i = .fail d j := (factor_of_unsigned ht hu n).trans (bind_fail h)
  exact reword_fail ht (operators_fail _ (operators_fail _ (operators_fail _ (operators_fail _ (operators_fail _
    hfactor))))) _

theorem expression_exhausted (hp : Plain t) (hu : Unsigned t)
    (h : atom (read n) input i = .exhausted) : expression (read (n + 2)) input i = .exhausted := by
  rw [expression_of_plain ht hp, logic_of_plain ht hp]
  have hfactor : read (n + 1) .factor input i = .exhausted := (factor_of_unsigned ht hu n).trans (bind_exhausted h)
  exact reword_exhausted (chain_exhausted _ hfactor) _

theorem expression_shallow (hp : Plain t) (hn : n < 2) : expression (read n) input i = .exhausted := by
  rw [expression_of_plain ht hp]
  obtain rfl | rfl : n = 0 ∨ n = 1 := by omega
  · rfl
  · rw [logic_of_plain ht hp]
    exact reword_exhausted (chain_exhausted _ rfl) _

end

theorem plain_of_not_starts (hs : starts t = false) : Plain t := fun word hw =>
  word_of_starts hs (by revert word; decide)

theorem unsigned_of_not_starts (hs : starts t = false) : Unsigned t :=
  ⟨kind_of_starts hs (by decide), kind_of_starts hs (by decide)⟩

/-- Where nothing begins, a statement could only be an expression. -/
theorem statement_of_not_starts (ht : input.At i t) (hs : starts t = false) (rec : Recursion) :
    ∃ details, statement rec input i =
      (do let n ← reword (expression rec) details; return (n, 0) : Reading (Node × Nat)) input i := by
  have noWord : ∀ word ∈ startWords, isWord word input i = .ok false i := fun word hw => by
    rw [isWord_at ht, word_of_starts hs hw]
  have noSkip : ∀ word ∈ startWords, skipWord word input i = .ok false i := fun word hw => by
    rw [skipWord_at ht, word_of_starts hs hw]
    rfl
  apply Exists.intro
  refine (bind_ok (start_at ht)).trans ((bind_ok (noWord "bring" (by decide))).trans ?_)
  refine (bind_ok (noWord "share" (by decide))).trans ((bind_ok (noSkip "give" (by decide))).trans ?_)
  exact (bind_ok (noSkip "cut" (by decide))).trans (bind_ok (noSkip "skip" (by decide)))

theorem read_statement_fails (ht : input.At i t) (hs : starts t = false) (n : Nat) :
    ∃ d, read (n + 3) .statement input i = .fail d i := by
  obtain ⟨d, hd⟩ := atom_fails ht hs (read n)
  obtain ⟨d', hd'⟩ := expression_fails ht (plain_of_not_starts hs) (unsigned_of_not_starts hs) hd
  obtain ⟨details, hstatement⟩ := statement_of_not_starts ht hs (read (n + 2))
  obtain ⟨d'', hd''⟩ := reword_fail ht hd' details
  exact ⟨d'', bind_fail (hstatement.trans (bind_fail hd''))⟩

theorem read_statement_shallow (ht : input.At i t) (hs : starts t = false) (hn : n < 3) :
    read n .statement input i = .exhausted := by
  cases n with
  | zero => rfl
  | succ n =>
    have h := expression_shallow ht (plain_of_not_starts hs) (show n < 2 by omega)
    obtain ⟨details, hstatement⟩ := statement_of_not_starts ht hs (read n)
    exact bind_exhausted (hstatement.trans (bind_exhausted (reword_exhausted h details)))

end Utterance.Grammar

import Utterance.Proofs.Productions
import Utterance.Proofs.Window

/-!
# What follows an operand

A body without a block ends where nothing more of it can be read, so that it takes in what was meant to follow the
expression around it: in `when c: f (x)` the function `f` is called, whatever the parentheses were written for. `Tail`
says what can follow when several such bodies are open. Each of them has a stage, which is how its last operand can go
on: with arguments, with places, or with operators only; and every body may be left.

By `flat_logicExpr`, an expression is its first operand and a tail. What a reading takes in of a tail, it may take in:
what follows is a tail again (`Tail.call_elim`, `Tail.element_elim`, `Tail.operator_elim`).
-/

namespace Utterance.Grammar

open Ebnf Spans List

open Token (Kind)

variable {l r : List Token} {p : Production}

/-- What comes from the right side of a production begins with a token of some sort. -/
def Ebnf.Leads (P : Token → Prop) (x : Ebnf) : Prop := ∀ l r, Spans x l r → ∃ t m, l = t :: m ∧ P t ∧ r <:+ m

namespace Ebnf.Leads

variable {P Q : Token → Prop} {x y : Ebnf}

theorem kind {k : Kind} (h : ∀ t, t.kind = k → P t) : Leads P (.kind k) := by
  intro l r hs
  obtain ⟨t, ht, rfl⟩ := iff_kind.1 hs
  exact ⟨t, r, rfl, h t ht, suffix_rfl⟩

theorem word {w : String} (h : ∀ t, t.isKeyword w = true → P t) : Leads P (.word w) := by
  intro l r hs
  obtain ⟨t, ht, rfl⟩ := iff_word.1 hs
  exact ⟨t, r, rfl, h t ht, suffix_rfl⟩

theorem rule (h : Leads P (accepted p)) : Leads P (.rule p) := fun l r hs => h l r (iff_rule.1 hs)

theorem append (h : Leads P x) : Leads P (x ++ y) := by
  intro l r hs
  obtain ⟨m, hx, hy⟩ := iff_append.1 hs
  obtain ⟨t, k, rfl, ht, hm⟩ := h l m hx
  exact ⟨t, k, rfl, ht, hy.suffix.trans hm⟩

theorem or (hx : Leads P x) (hy : Leads P y) : Leads P (x ||| y) := by
  intro l r hs
  rcases iff_or.1 hs with h | h
  · exact hx l r h
  · exact hy l r h

theorem mono (h : Leads P x) (hPQ : ∀ t, P t → Q t) : Leads Q x := by
  intro l r hs
  obtain ⟨t, m, hl, ht, hm⟩ := h l r hs
  exact ⟨t, m, hl, hPQ t ht, hm⟩

end Ebnf.Leads

def atomKinds : List Kind := [.int, .float, .string, .identifier, .lparen, .lsquare]

def atomWords : List String := ["true", "false", "when", "cycle", "as long as", "repeat while", "make function"]

def opensAtom (t : Token) : Bool := atomKinds.contains t.kind || atomWords.any t.isKeyword

variable {t : Token}

theorem opensAtom_elim (h : opensAtom t = true) : t.kind ∈ atomKinds ∨ ∃ w ∈ atomWords, t.isKeyword w = true := by
  simpa [opensAtom] using h

theorem opensAtom_of_kind (h : atomKinds.contains t.kind = true) : opensAtom t = true := by
  rw [opensAtom, h, Bool.true_or]

variable {w : String}

theorem opensAtom_of_word (h : t.isKeyword w = true) (hw : w ∈ atomWords) : opensAtom t = true := by
  rw [opensAtom, Bool.or_eq_true]
  exact .inr (any_eq_true.2 ⟨w, hw, h⟩)

theorem starts_of_kind (h : startKinds.contains t.kind = true) : starts t = true := by
  rw [starts, h, Bool.true_or]

theorem starts_of_word (h : t.isKeyword w = true) (hw : w ∈ startWords) : starts t = true := by
  rw [starts, Bool.or_eq_true]
  exact .inr (any_eq_true.2 ⟨w, hw, h⟩)

theorem starts_of_opensAtom (h : opensAtom t = true) : starts t = true := by
  rcases opensAtom_elim h with h | ⟨w, hw, h⟩
  · have hkinds : ∀ k ∈ atomKinds, startKinds.contains k = true := by decide
    exact starts_of_kind (hkinds _ h)
  · have hwords : ∀ w ∈ atomWords, w ∈ startWords := by decide
    exact starts_of_word h (hwords w hw)

theorem plain_of_opensAtom (h : opensAtom t = true) : Plain t := by
  intro word hword
  rcases opensAtom_elim h with h | ⟨w, hw, h⟩
  · have hkinds : ∀ k ∈ atomKinds, k ≠ .keyword := by decide
    exact isKeyword_of_kind (hkinds _ h) word
  · have hwords : ∀ w ∈ atomWords, ∀ word ∈ ["put", "keep", "show", "not"], (w == word) = false := by decide
    rw [isKeyword_of_isKeyword h]
    exact hwords w hw word hword

theorem unsigned_of_opensAtom (h : opensAtom t = true) : Unsigned t := by
  rcases opensAtom_elim h with h | ⟨w, -, h⟩
  · have hkinds : ∀ k ∈ atomKinds, k ≠ .plus ∧ k ≠ .minus := by decide
    exact hkinds _ h
  · rw [Unsigned, kind_of_isKeyword h]
    decide

theorem leads_atom : Leads (opensAtom · = true) (.rule .atom) := by
  have kinds {k : Kind} (hk : atomKinds.contains k = true) : Leads (opensAtom · = true) (.kind k) :=
    .kind fun t ht => opensAtom_of_kind (ht ▸ hk)
  have words {w : String} (hw : w ∈ atomWords) : Leads (opensAtom · = true) (.word w) :=
    .word fun t ht => opensAtom_of_word ht hw
  have list : Leads (opensAtom · = true) (.rule .listExpr) := .rule (.append (.append (kinds (by decide))))
  have conditional : Leads (opensAtom · = true) (.rule .ifExpr) :=
    .rule (.append (.append (.append (words (by decide)))))
  have cycle {x y : Ebnf} : Leads (opensAtom · = true) (.word "cycle" ++ x ++ y) :=
    .append (.append (words (by decide)))
  have loop : Leads (opensAtom · = true) (.rule .loopExpr) :=
    .rule (.or (.append (.append (.append (.append (.append cycle))))) (.append (.append (.append (.append cycle)))))
  have while_ : Leads (opensAtom · = true) (.rule .whileExpr) := .rule (.append (.append (.append (words (by decide)))))
  have doWhile : Leads (opensAtom · = true) (.rule .doWhileExpr) :=
    .rule (.append (.append (.append (words (by decide)))))
  have func : Leads (opensAtom · = true) (.rule .funcDef) :=
    .rule (.append (.append (.append (.append (.append (.append (words (by decide))))))))
  exact .rule (.or (.or (.or (.or (.or (.or (.or (.or (.or (.or (.or (.or (kinds (by decide)) (kinds (by decide)))
    (kinds (by decide))) (kinds (by decide))) (words (by decide))) (words (by decide)))
    (.append (.append (kinds (by decide))))) list) conditional) loop) while_) doWhile) func)

section

variable {P : Token → Prop} (hsign : ∀ t, t.kind = .plus ∨ t.kind = .minus → P t)
  (hatom : ∀ t, opensAtom t = true → P t)

include hsign hatom

theorem leads_factor : Leads P (.rule .factor) := by
  have atom : Leads P (.rule .atom) := leads_atom.mono hatom
  refine .rule (.or (.append (.or ?_ ?_)) (.rule (.or (.append atom) (.append atom))))
  · exact .kind fun t ht => hsign t (.inl ht)
  · exact .kind fun t ht => hsign t (.inr ht)

theorem leads_logicExpr (hnot : ∀ t, t.isKeyword "not" = true → P t) : Leads P (.rule .logicExpr) :=
  .rule (.or (.append (.word hnot))
    (.append (.rule (.append (.rule (.append (.rule (.append (leads_factor hsign hatom)))))))))

end

theorem leads_logicExpr_starts : Leads (starts · = true) (.rule .logicExpr) := by
  refine leads_logicExpr (fun t ht => ?_) (fun t => starts_of_opensAtom) fun t ht => starts_of_word ht (by decide)
  rcases ht with ht | ht <;> exact starts_of_kind (ht ▸ by decide)

theorem isKeyword_of_not_mem {w' : String} {words : List String} (h : t.isKeyword w = true) (hw : w ∈ words)
    (hw' : w' ∉ words) : t.isKeyword w' = false := by
  rw [isKeyword_of_isKeyword h]
  refine beq_false_of_ne ?_
  rintro rfl
  exact hw' hw

theorem leads_logicExpr_words :
    Leads (fun t => ∀ w, w ∉ "not" :: atomWords → t.isKeyword w = false) (.rule .logicExpr) := by
  refine leads_logicExpr (fun t ht w _ => ?_) (fun t ht w hw => ?_) fun t ht w hw =>
    isKeyword_of_not_mem ht (by decide) hw
  · exact isKeyword_of_kind (by rcases ht with ht | ht <;> rw [ht] <;> decide) w
  · rcases opensAtom_elim ht with ht | ⟨w', hw', ht⟩
    · have hkinds : ∀ k ∈ atomKinds, k ≠ .keyword := by decide
      exact isKeyword_of_kind (hkinds _ ht) w
    · exact isKeyword_of_not_mem ht (mem_cons_of_mem _ hw') hw

theorem leads_expr : Leads (fun t => ∀ w, w ∉ "put" :: "keep" :: "show" :: "not" :: atomWords → t.isKeyword w = false)
    (.rule .expr) := by
  have words {w : String} (hw : w ∈ "put" :: "keep" :: "show" :: "not" :: atomWords) :
      Leads (fun t => ∀ w, w ∉ "put" :: "keep" :: "show" :: "not" :: atomWords → t.isKeyword w = false) (.word w) :=
    .word fun t ht w' hw' => isKeyword_of_not_mem ht hw hw'
  refine .rule (.or (.or (.or ?_ ?_) ?_) (leads_logicExpr_words.mono fun t ht w hw => ht w ?_))
  · exact .append (.append (.append (.append (words (by decide)))))
  · exact .append (.append (.append (words (by decide))))
  · exact .append (words (by decide))
  · simp only [mem_cons, not_or] at hw ⊢
    exact hw.2.2.2

theorem leads_statement : Leads (starts · = true) (.rule .statement) := by
  have words {w : String} (hw : w ∈ startWords) : Leads (starts · = true) (.word w) :=
    .word fun t ht => starts_of_word ht hw
  refine .rule (.or (.append (words (by decide))) (.rule (.or (.or (.or ?_ ?_) ?_) leads_logicExpr_starts)))
  · exact .append (.append (.append (.append (words (by decide)))))
  · exact .append (.append (.append (words (by decide))))
  · exact .append (words (by decide))

/-- How an operand can go on after its atom: not at all, with places in a collection, or also with arguments. -/
inductive Stage where
  | spent | looking | fresh
deriving DecidableEq

def Ebnf.sign : Ebnf := kind .plus ||| kind .minus

def Ebnf.operand : Ebnf := star sign ++ rule .atom

def Ebnf.arguments : Ebnf := kind .lparen ++ row (rule .logicExpr) ++ kind .rparen

def Ebnf.element : Ebnf := kind .atSign ++ rule .atom

theorem Spans.iff_sign : Spans sign l r ↔ ∃ t, (t.kind = .plus ∨ t.kind = .minus) ∧ l = t :: r := by
  simp only [sign, iff_or, iff_kind, ← exists_or, ← or_and_right]

theorem Spans.operand_of_atom (h : Spans (.rule .atom) l r) : Spans operand l r :=
  iff_append.2 ⟨l, .star_nil _ _, h⟩

def Halting (e : List Token) : Prop := ∃ u r, e = u :: r ∧ halts u = true

/-- What follows an operand, up to `e`, while expressions are open at some stages, the innermost one first. -/
inductive Tail (e : List Token) : List Stage → List Token → Prop
  | stop {ss} : Halting e → Tail e ss e
  | call {ss l r} : Spans arguments l r → Tail e (.spent :: ss) r → Tail e (.fresh :: ss) l
  | element {s ss l r} : s ≠ .spent → Spans element l r → Tail e (.looking :: ss) r → Tail e (s :: ss) l
  | operator {s ss t l r} : isOperator t = true → Spans operand l r → Tail e (.fresh :: ss) r → Tail e (s :: ss) (t ::
    l)
  | leave {s ss l} : Tail e ss l → Tail e (s :: ss) l

namespace Tail

variable {e : List Token} {s s' : Stage} {ss : List Stage}

theorem halting (h : Tail e ss l) : Halting e := by
  induction h with
  | stop he => exact he
  | call _ _ ih | element _ _ _ ih | operator _ _ _ ih | leave _ ih => exact ih

theorem suffix (h : Tail e ss l) : e <:+ l := by
  induction h with
  | stop => exact suffix_rfl
  | call hs _ ih | element _ hs _ ih => exact ih.trans hs.suffix
  | operator _ hs _ ih => exact (ih.trans hs.suffix).trans (suffix_cons ..)
  | leave _ ih => exact ih

theorem eq_cons (h : Tail e ss l) : ∃ t m, l = t :: m := by
  obtain ⟨u, r, rfl, -⟩ := h.halting
  obtain ⟨before, rfl⟩ := h.suffix
  cases before with
  | nil => exact ⟨u, r, rfl⟩
  | cons t before => exact ⟨t, before ++ u :: r, rfl⟩

theorem eq_of_nil (h : Tail e [] l) : l = e := by
  cases h
  rfl

/-- Something is open where a token follows that goes on with something. -/
theorem exists_stage (h : Tail e ss (t :: l)) (ht : halts t = false) : ∃ s ss', ss = s :: ss' := by
  cases ss with
  | nil =>
    obtain ⟨u, r, rfl, hu⟩ := h.halting
    cases h.eq_of_nil
    rw [ht] at hu
    cases hu
  | cons s ss => exact ⟨s, ss, rfl⟩

theorem freshen (h : Tail e (s :: ss) l) : Tail e (.fresh :: ss) l := by
  cases h with
  | stop he => exact .stop he
  | call hs h => exact .call hs h
  | element _ hs h => exact .element (by decide) hs h
  | operator ho hs h => exact .operator ho hs h
  | leave h => exact .leave h

theorem of_spent (h : Tail e (.spent :: ss) l) : Tail e (s :: ss) l := by
  cases h with
  | stop he => exact .stop he
  | element hne => exact absurd rfl hne
  | operator ho hs h => exact .operator ho hs h
  | leave h => exact .leave h

theorem insert (h : Tail e (s :: ss) l) (s' : Stage) : Tail e (s :: s' :: ss) l := by
  generalize hst : s :: ss = st at h
  induction h generalizing s with
  | stop he => exact .stop he
  | call hs _ ih =>
    cases hst
    exact .call hs (ih rfl)
  | element hne hs _ ih =>
    cases hst
    exact .element hne hs (ih rfl)
  | operator ho hs _ ih =>
    cases hst
    exact .operator ho hs (ih rfl)
  | leave h =>
    cases hst
    exact .leave (.leave h)

/-! Which token comes first tells how a tail begins. -/

theorem kind_of_arguments (h : Spans arguments (t :: l) r) : t.kind = .lparen := by
  obtain ⟨_, h, -⟩ := iff_append.1 h
  obtain ⟨_, h, -⟩ := iff_append.1 h
  obtain ⟨_, hk, heq⟩ := iff_kind.1 h
  cases heq
  exact hk

theorem kind_of_element (h : Spans Ebnf.element (t :: l) r) : t.kind = .atSign := by
  obtain ⟨_, h, -⟩ := iff_append.1 h
  obtain ⟨_, hk, heq⟩ := iff_kind.1 h
  cases heq
  exact hk

theorem halts_of_eq (he : Halting e) (h : t :: l = e) : halts t = true := by
  obtain ⟨u, r, rfl, hu⟩ := he
  cases h
  exact hu

theorem isOperator_of_halts (h : halts t = true) : isOperator t = false := by
  simp only [halts, Bool.and_eq_true, Bool.not_eq_true'] at h
  exact h.1.2

theorem kind_ne_of_halts (h : halts t = true) : t.kind ≠ .lparen ∧ t.kind ≠ .atSign := by
  refine ⟨fun hk => ?_, fun hk => ?_⟩
  · have := starts_of_halts h
    rw [starts, hk] at this
    cases this
  · simp [halts, hk] at h

theorem kind_ne_of_isOperator (h : isOperator t = true) : t.kind ≠ .lparen ∧ t.kind ≠ .atSign := by
  refine ⟨fun hk => ?_, fun hk => ?_⟩
  all_goals
    rw [isOperator, isKeyword_of_kind (by rw [hk]; decide), isKeyword_of_kind (by rw [hk]; decide), hk] at h
    cases h

/-- What a tail begins with can be taken in by the innermost expression. -/
theorem head_cases (h : Tail e (s :: ss) l) : l = e ∨ (∃ r, Spans arguments l r ∧ Tail e (.spent :: ss) r) ∨
    (∃ r, Spans Ebnf.element l r ∧ Tail e (.looking :: ss) r) ∨
    ∃ t m r, l = t :: m ∧ isOperator t = true ∧ Spans operand m r ∧ Tail e (.fresh :: ss) r := by
  generalize hst : s :: ss = st at h
  induction h generalizing s ss with
  | stop => exact .inl rfl
  | @call _ _ r hs h =>
    cases hst
    exact .inr (.inl ⟨r, hs, h⟩)
  | @element _ _ _ r _ hs h =>
    cases hst
    exact .inr (.inr (.inl ⟨r, hs, h⟩))
  | @operator _ _ t m r ho hs h =>
    cases hst
    exact .inr (.inr (.inr ⟨t, m, r, rfl, ho, hs, h⟩))
  | @leave _ st _ h ih =>
    -- what an outer expression goes on with, the innermost one can take in
    cases hst
    cases st with
    | nil => exact .inl h.eq_of_nil
    | cons s ss =>
      rcases ih rfl with h | ⟨r, hs, h⟩ | ⟨r, hs, h⟩ | ⟨t, m, r, hl, ho, hs, h⟩
      · exact .inl h
      · exact .inr (.inl ⟨r, hs, .leave h.of_spent⟩)
      · exact .inr (.inr (.inl ⟨r, hs, h.insert _⟩))
      · exact .inr (.inr (.inr ⟨t, m, r, hl, ho, hs, h.insert _⟩))

theorem call_elim (hk : t.kind = .lparen) (h : Tail e (s :: ss) (t :: l)) :
    ∃ r, Spans arguments (t :: l) r ∧ Tail e (.spent :: ss) r := by
  have he := h.halting
  rcases h.head_cases with h | h | ⟨r, hs, -⟩ | ⟨u, m, r, hl, ho, -⟩
  · exact absurd hk (kind_ne_of_halts (halts_of_eq he h)).1
  · exact h
  · rw [kind_of_element hs] at hk
    cases hk
  · cases hl
    exact absurd hk (kind_ne_of_isOperator ho).1

theorem element_elim (hk : t.kind = .atSign) (h : Tail e (s :: ss) (t :: l)) :
    ∃ r, Spans Ebnf.element (t :: l) r ∧ Tail e (.looking :: ss) r := by
  have he := h.halting
  rcases h.head_cases with h | ⟨r, hs, -⟩ | h | ⟨u, m, r, hl, ho, -⟩
  · exact absurd hk (kind_ne_of_halts (halts_of_eq he h)).2
  · rw [kind_of_arguments hs] at hk
    cases hk
  · exact h
  · cases hl
    exact absurd hk (kind_ne_of_isOperator ho).2

theorem operator_elim (ho : isOperator t = true) (h : Tail e (s :: ss) (t :: l)) :
    ∃ r, Spans operand l r ∧ Tail e (.fresh :: ss) r := by
  have he := h.halting
  rcases h.head_cases with h | ⟨r, hs, -⟩ | ⟨r, hs, -⟩ | ⟨u, m, r, hl, -, h⟩
  · rw [isOperator_of_halts (halts_of_eq he h)] at ho
    cases ho
  · exact absurd (kind_of_arguments hs) (kind_ne_of_isOperator ho).1
  · exact absurd (kind_of_element hs) (kind_ne_of_isOperator ho).2
  · cases hl
    exact ⟨r, h⟩

/-- An operand that does not go on with the token that follows is spent. -/
theorem spend (h : Tail e (s :: ss) (t :: l)) (hcall : t.kind = .lparen → s ≠ .fresh)
    (helement : t.kind = .atSign → s = .spent) : Tail e (.spent :: ss) (t :: l) := by
  generalize hl : t :: l = l' at h ⊢
  cases h with
  | stop he => exact .stop he
  | call hs =>
    subst hl
    exact absurd rfl (hcall (kind_of_arguments hs))
  | element hne hs =>
    subst hl
    exact absurd (helement (kind_of_element hs)) hne
  | operator ho hs h => exact .operator ho hs h
  | leave h => exact .leave h

/-- A spent operand that no operator follows ends its expression. -/
theorem exit (h : Tail e (.spent :: ss) (t :: l)) (ho : isOperator t = false) : Tail e ss (t :: l) := by
  generalize hl : t :: l = l' at h ⊢
  cases h with
  | stop he => exact .stop he
  | element hne => exact absurd rfl hne
  | operator ho' =>
    cases hl
    rw [ho] at ho'
    cases ho'
  | leave h => exact h

end Tail

/-- What comes from the right side of a production is an operand and a tail, if operators may follow. -/
def Ebnf.Flat (x : Ebnf) : Prop :=
  ∀ e ss l r, Spans x l r → Tail e (.spent :: ss) r → ∃ m, Spans operand l m ∧ Tail e (.fresh :: ss) m

namespace Ebnf.Flat

theorem rule (h : Flat (accepted p)) : Flat (.rule p) :=
  fun e ss l r hs => h e ss l r (iff_rule.1 hs)

theorem chain {x op : Ebnf} (h : Flat x) (hop : ∀ l r, Spans op l r → ∃ t, isOperator t = true ∧ l = t :: r) :
    Flat (x ++ star (op ++ x)) := by
  intro e ss l r hs hr
  obtain ⟨m, hx, hmore⟩ := iff_append.1 hs
  refine h e ss l m hx (hmore.star_induction hr fun l m hstep _ hm => ?_)
  obtain ⟨k, hk, hx⟩ := iff_append.1 hstep
  obtain ⟨t, ht, rfl⟩ := hop l k hk
  obtain ⟨q, hq, htail⟩ := h e ss k m hx hm
  exact .operator ht hq htail

theorem call : Flat (.rule .call) := by
  refine .rule fun e ss l r hs hr => ?_
  rcases iff_or.1 hs with hs | hs
  · obtain ⟨m, hatom, hs⟩ := iff_append.1 hs
    refine ⟨m, hatom.operand_of_atom, ?_⟩
    rcases iff_opt.1 hs with rfl | hargs
    · exact hr.freshen
    · exact .call hargs hr
  · obtain ⟨m, hatom, hs⟩ := iff_append.1 hs
    refine ⟨m, hatom.operand_of_atom, Tail.freshen (s := .looking) ?_⟩
    exact hs.star_induction hr.of_spent fun l m hstep _ hm => .element (by decide) hstep hm

theorem factor : Flat (.rule .factor) := by
  intro e ss l r hs hr
  induction hn : l.length using Nat.strongRecOn generalizing l with
  | ind n ih =>
    subst hn
    rcases iff_or.1 (iff_rule.1 hs) with hs | hs
    · obtain ⟨m, hsign, hs⟩ := iff_append.1 hs
      have hlt : m.length < l.length := by
        obtain ⟨t, -, rfl⟩ := iff_sign.1 hsign
        exact Nat.lt_succ_self _
      obtain ⟨k, hk, htail⟩ := ih m.length hlt m hs rfl
      obtain ⟨q, hsigns, hatom⟩ := iff_append.1 hk
      exact ⟨k, iff_append.2 ⟨q, .star_cons hsign hsigns, hatom⟩, htail⟩
    · exact call e ss l r hs hr

theorem operator_of_kind {k : Kind} (hk : operatorKinds.contains k = true) {l r : List Token}
    (h : Spans (.kind k) l r) : ∃ t, isOperator t = true ∧ l = t :: r := by
  obtain ⟨t, rfl, rfl⟩ := iff_kind.1 h
  exact ⟨t, by rw [isOperator, hk, Bool.true_or, Bool.true_or], rfl⟩

theorem operator_or {x y : Ebnf} (hx : ∀ l r, Spans x l r → ∃ t, isOperator t = true ∧ l = t :: r)
    (hy : ∀ l r, Spans y l r → ∃ t, isOperator t = true ∧ l = t :: r) (l r : List Token) (h : Spans (x ||| y) l r) :
    ∃ t, isOperator t = true ∧ l = t :: r :=
  (iff_or.1 h).elim (hx l r) (hy l r)

theorem compExpr : Flat (.rule .compExpr) := by
  have kinds {k : Kind} (hk : operatorKinds.contains k = true) (l r : List Token) := @operator_of_kind k hk l r
  have term : Flat (.rule .term) := .rule (factor.chain (operator_or (kinds (by decide)) (kinds (by decide))))
  have arith : Flat (.rule .arithExpr) := .rule (term.chain (operator_or (kinds (by decide)) (kinds (by decide))))
  exact .rule (arith.chain (operator_or (operator_or (operator_or (operator_or (operator_or (kinds (by decide))
    (kinds (by decide))) (kinds (by decide))) (kinds (by decide))) (kinds (by decide))) (kinds (by decide))))

theorem connected : Flat (.rule .compExpr ++ .star ((.word "and" ||| .word "or") ++ .rule .compExpr)) := by
  refine compExpr.chain (operator_or (fun l r h => ?_) fun l r h => ?_)
  all_goals
    obtain ⟨t, ht, rfl⟩ := iff_word.1 h
    exact ⟨t, by simp [isOperator, ht], rfl⟩

end Ebnf.Flat

/-- An expression is an operand and a tail, after words that negate it. -/
theorem flat_logicExpr {e : List Token} {ss : List Stage} (h : Spans (.rule .logicExpr) l r) (hr : Tail e ss r) :
    ∃ m k, Spans (.star (.word "not")) l m ∧ Spans operand m k ∧ Tail e (.fresh :: ss) k := by
  induction hn : l.length using Nat.strongRecOn generalizing l with
  | ind n ih =>
    subst hn
    rcases iff_or.1 (iff_rule.1 h) with h | h
    · obtain ⟨m, hnot, h⟩ := iff_append.1 h
      have hlt : m.length < l.length := by
        obtain ⟨t, -, rfl⟩ := iff_word.1 hnot
        exact Nat.lt_succ_self _
      obtain ⟨q, k, hnots, hk⟩ := ih m.length hlt h rfl
      exact ⟨q, k, .star_cons hnot hnots, hk⟩
    · obtain ⟨k, hk, htail⟩ := Flat.connected e ss l r h (.leave hr)
      exact ⟨l, k, .star_nil _ _, hk, htail⟩

end Utterance.Grammar

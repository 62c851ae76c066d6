import Utterance.Proofs.Alike
import Utterance.Proofs.Levels

/-!
# Reading expressions as they are written

Where the tokens of an expression stand and nothing follows that could go on with it, the grammar reads a tree that
differs from the expression in positions only (`Legible`). There is one lemma for each kind of expression, and
`legible_of_expression` puts them together. A program that is written like an expression is then read as that
expression (`parse_written`), whatever the depth is that its reading would need, since the depth of a program is never
reached.
-/

namespace Utterance.Grammar

open Filter Node Reading List Input

open Token (Kind)

variable {closing opening : Kind} {last : Bool} {ms : List Mark} {xs : List Node}

variable {α δ : Type} {input : Input} {i j k : Nat} {t u : Token} {e : Node} {m : Mark}

theorem Input.Shows.follow (hs : input.Shows i (ms ++ [m])) :
    i + ms.length ≤ input.lexemes.size ∧ ∃ u, input.At (i + ms.length) u ∧ u.content = m := by
  obtain ⟨hms, ⟨u, hu⟩, -⟩ := shows_append.1 hs
  exact ⟨hms.length_le, u, hu⟩

/-- An expression that differs from `e` in positions only is read, at the level where it is held together. -/
def ReadAlike (input : Input) (e : Node) (i j b : Nat) : Prop :=
  ∃ t e', input.At i t ∧ Opens b t ∧ e'.Alike AnyPlace e ∧ Parsed input i j e' b

/-- Where an expression is written, it is read at its level, if the token that follows does not go on with it. -/
def Legible (e : Node) : Prop :=
  ∀ (last : Bool) (input : Input) (i : Nat) (m : Mark), input.Shows i (e.written last ++ [m]) →
    strength m ≤ (if last then 0 else e.binding) → (e.isLambda = true → last = true) →
      ReadAlike input e i (i + (e.written last).length) e.binding

private theorem looser {a b c : Nat} (h : a ≤ if last then 0 else b) (hbc : b ≤ c) : a ≤ if last then 0 else c := by
  cases last with
  | true => exact h
  | false => exact Nat.le_trans h hbc

theorem anySpan (s s' : Span) : s.Alike AnyPlace s' := ⟨trivial, trivial⟩

theorem alike_of_content {t' : Token} (h : t'.content = t.content) : t'.Alike AnyPlace t :=
  ⟨congrArg Prod.fst h, congrArg Prod.snd h, trivial, trivial⟩

variable {kind : Kind} {w : String}

theorem kind_of_content (h : t.content = bare kind) : t.kind = kind := congrArg Prod.fst h

theorem isKeyword_of_content (h : t.content = word w) : t.isKeyword w = true := by
  rw [Token.isKeyword, show t.kind = .keyword from congrArg Prod.fst h, show t.value = .text w from congrArg Prod.snd h]
  exact beq_self_eq_true w

private theorem not_isKeyword_of_content (h : t.content = m) (hm : m ≠ word w) : t.isKeyword w = false := by
  rw [Bool.eq_false_iff]
  intro hk
  exact hm (h ▸ Prod.ext (kind_of_isKeyword hk) (value_of_isKeyword hk))

private theorem expectWord_at (h : input.At i t) (hw : t.isKeyword w = true) (details : String) :
    expectWord w details input i = .ok () (i + 1) := by
  refine (bind_ok (isWord_at h w)).trans ?_
  rw [hw]
  rfl

private theorem identifier_at (h : input.At i t) (hk : t.kind = .identifier) (details : String) :
    identifier details input i = .ok t (i + 1) := by
  refine (bind_ok (isKind_at h .identifier)).trans ?_
  rw [hk]
  exact bind_ok (token_at h)

theorem expectKind_eq (h : input.At i t) (hk : t.kind = kind) (details : String) :
    expectKind kind details input i = .ok () (i + 1) := hk ▸ expectKind_at h details

private theorem skipKind_opens {b : Nat} (ht : input.At i t) (ho : Opens b t)
    (hk : kind ∉ .keyword :: .plus :: .minus :: openKinds) : skipKind kind input i = .ok false i := by
  rw [skipKind_at ht, beq_false_of_ne (ho.kind_ne hk)]
  rfl

theorem skipKind_eq (ht : input.At i t) (hk : t.kind = kind) : skipKind kind input i = .ok true (i + 1) := by
  rw [skipKind_at ht, hk, beq_self_eq_true]
  rfl

/-- A whole expression is read where nothing follows that could go on with it. -/
theorem Legible.whole (h : Legible e) (hs : input.Shows i (e.written true ++ [m])) (hm : strength m = 0) :
    ∃ t e', input.At i t ∧ Opens 0 t ∧ e'.Alike AnyPlace e ∧
      Reads input (fun rec => rec .logic) i e' (i + (e.written true).length) := by
  obtain ⟨hj, u, hu, rfl⟩ := hs.follow
  obtain ⟨t, e', ht, ho, halike, hparsed⟩ := h true input i _ hs (by rw [hm]; exact Nat.zero_le _) fun _ => rfl
  exact ⟨t, e', ht, ho.mono (Nat.zero_le _), halike, hparsed.whole ht ho hj hu hm⟩

private theorem reads_parenthesised (ht : input.At i t) (hk : t.kind = .lparen)
    (h : Reads input (fun rec => rec .logic) (i + 1) e j)
    (hu : input.At j u) (hku : u.kind = .rparen) : Reads input atom i e (j + 1) := by
  refine .pass (token_at ht) ?_
  rw [hk]
  exact .pass (expectKind_eq ht hk _) (h.bind (.pass (expectKind_eq hu hku _) (.pure rfl)))

/-- With parentheses where need be, an expression is held together as its place asks for. -/
theorem Legible.fit (h : Legible e) {level : Nat} (hl : level ≤ 9)
    (hs : input.Shows i (e.fit level last e.written ++ [m])) (hm : strength m ≤ if last then 0 else level) :
    ∃ b, level ≤ b ∧ ReadAlike input e i (i + (e.fit level last e.written).length) b := by
  unfold Node.fit at hs ⊢
  split at hs
  · next hneeds =>
    rw [if_pos hneeds]
    obtain ⟨⟨t, ht, hopen⟩, hs⟩ := hs
    have hinner := (shows_append.1 hs).1
    obtain ⟨-, u, hu, hclose⟩ := hinner.follow
    obtain ⟨-, e', -, -, halike, hreads⟩ := h.whole hinner rfl
    have hatom := reads_parenthesised ht (kind_of_content hopen) hreads hu (kind_of_content hclose)
    refine ⟨9, hl, t, e', ht, .inl (by rw [kind_of_content hopen]; decide), halike, .atom ?_⟩
    rw [enclosed, length_cons, length_append, length_singleton]
    rwa [show i + ((e.written true).length + 1 + 1) = i + 1 + (e.written true).length + 1 by omega]
  · next hneeds =>
    rw [if_neg hneeds]
    simp only [Bool.or_eq_true, decide_eq_true_eq, Bool.and_eq_true, Bool.not_eq_true', not_or, not_and,
      Nat.not_lt] at hneeds
    exact ⟨e.binding, hneeds.1, h last input i m hs (looser hm hneeds.1) fun hlambda => by simpa using hneeds.2 hlambda⟩

theorem Input.Shows.head {ms' : List Mark} (hs : input.Shows i (ms ++ m :: ms')) : input.Shows i (ms ++ [m]) := by
  rw [append_cons] at hs
  exact (shows_append.1 hs).1

section

variable {item : Recursion → Reading α} {R : α → δ → Prop} {marks : δ → List Mark} {Ends : Mark → Prop}
  {separator : Mark}
  {xs : List δ}

theorem eachAfter_head (separator m : Mark) (marks : δ → List Mark) (xs : List δ) :
    ∃ m' rest, eachAfter separator marks xs ++ [m] = m' :: rest ∧ (m' = separator ∨ m' = m) := by
  cases xs with
  | nil => exact ⟨m, [], rfl, .inr rfl⟩
  | cons x xs => exact ⟨separator, _, rfl, .inl rfl⟩

private theorem eachAfter_cons (x : δ) (xs : List δ) :
    eachAfter separator marks (x :: xs) = separator :: (marks x ++ eachAfter separator marks xs) := rfl

private theorem length_le_eachAfter (separator : Mark) (marks : δ → List Mark) (xs : List δ) :
    xs.length ≤ (eachAfter separator marks xs).length := by
  induction xs with
  | nil => exact Nat.le_refl _
  | cons x xs ih =>
    rw [eachAfter_cons, length_cons, length_cons, length_append]
    omega

/-- Wherever an item is written before a token that ends it, it is read. -/
def ItemReads (input : Input) (item : Recursion → Reading α) (R : α → δ → Prop) (marks : δ → List Mark)
    (Ends : Mark → Prop) (x : δ) : Prop :=
  ∀ i m, Ends m → input.Shows i (marks x ++ [m]) → ∃ a, R a x ∧ Reads input item i a (i + (marks x).length)

theorem ItemReads.first {x : δ} (h : ItemReads input item R marks Ends x) (hsep : Ends separator) (hm : Ends m)
    (hs : input.Shows i (marks x ++ (eachAfter separator marks xs ++ [m]))) :
    ∃ a, R a x ∧ Reads input item i a (i + (marks x).length) := by
  obtain ⟨m', rest, hmore, hm'⟩ := eachAfter_head separator m marks xs
  rw [hmore] at hs
  refine h i m' ?_ hs.head
  rcases hm' with rfl | rfl
  · exact hsep
  · exact hm

/-- Items are read one after the other, each after its separator, up to a token that is none. -/
theorem reads_eachAfter {more : Reading Bool}
    (hmore : ∀ {i t}, input.At i t → t.content = separator → more input i = .ok true (i + 1))
    (hstop : ∀ {i t}, input.At i t → t.content = m → more input i = .ok false i)
    (hsep : Ends separator) (hm : Ends m) (hx : ∀ x ∈ xs, ItemReads input item R marks Ends x)
    (hs : input.Shows i (eachAfter separator marks xs ++ [m])) :
    ∃ as, Forall₂ R as xs ∧
      Reads input (fun rec => many more (item rec)) i as (i + (eachAfter separator marks xs).length) := by
  have hafter : ∃ as, Forall₂ R as xs ∧ ∀ fuel > xs.length,
    Reads input (fun rec => manyAfter more (item rec) fuel) i as
      (i + (eachAfter separator marks xs).length) := by
    induction xs generalizing i with
    | nil =>
      obtain ⟨⟨t, ht, hc⟩, -⟩ := hs
      refine ⟨[], .nil, fun fuel hfuel => ?_⟩
      obtain ⟨fuel, rfl⟩ : ∃ k, fuel = k + 1 := ⟨fuel - 1, by simp at hfuel; omega⟩
      exact .pass (hstop ht hc) (.pure rfl)
    | cons x xs ih =>
      rw [eachAfter_cons, cons_append, append_assoc] at hs
      obtain ⟨⟨t, ht, hc⟩, hs⟩ := hs
      obtain ⟨a, ha, hreads⟩ := (hx x (mem_cons_self ..)).first hsep hm hs
      obtain ⟨as, has, hrest⟩ := ih (fun y hy => hx y (mem_cons_of_mem _ hy)) (shows_append.1 hs).2
      refine ⟨a :: as, .cons ha has, fun fuel hfuel => ?_⟩
      obtain ⟨fuel, rfl⟩ : ∃ k, fuel = k + 1 := ⟨fuel - 1, by simp at hfuel; omega⟩
      have hfuel' : fuel > xs.length := by simpa using hfuel
      refine .pass (hmore ht hc) (hreads.bind ((hrest fuel hfuel').bind (.pure ?_)))
      rw [eachAfter_cons, length_cons, length_append]
      omega
  obtain ⟨as, has, hafter⟩ := hafter
  refine ⟨as, has, ?_⟩
  have hlength := (shows_append.1 hs).1.length_le
  have hle := length_le_eachAfter separator marks xs
  exact .pass rfl (hafter (input.lexemes.size + 1) (by omega))

private theorem reads_moreCommas (hcomma : Ends (bare .comma)) (hm : Ends m) (hc : m.1 ≠ .comma)
    (hx : ∀ x ∈ xs, ItemReads input item R marks Ends x)
    (hs : input.Shows i (eachAfter (bare .comma) marks xs ++ [m])) :
    ∃ as, Forall₂ R as xs ∧ Reads input (fun rec => many (skipKind .comma) (item rec)) i as
      (i + (eachAfter (bare .comma) marks xs).length) := by
  refine reads_eachAfter (fun {i t} ht hcomma => ?_) (fun {i t} ht hm => ?_) hcomma hm hx hs
  · rw [skipKind_at ht, kind_of_content hcomma]
    rfl
  · subst hm
    rw [skipKind_at ht, beq_false_of_ne (show t.kind ≠ .comma from hc)]
    rfl

private theorem reads_moreWords {w : String} (hw : Ends (word w)) (hm : Ends m) (hc : m ≠ word w)
    (hx : ∀ x ∈ xs, ItemReads input item R marks Ends x) (hs : input.Shows i (eachAfter (word w) marks xs ++ [m])) :
    ∃ as, Forall₂ R as xs ∧ Reads input (fun rec => many (skipWord w) (item rec)) i as
      (i + (eachAfter (word w) marks xs).length) := by
  refine reads_eachAfter (fun {i t} ht hword => ?_) (fun {i t} ht hm => ?_) hw hm hx hs
  · rw [skipWord_at ht, isKeyword_of_content hword]
    rfl
  · rw [skipWord_at ht, not_isKeyword_of_content hm hc]
    rfl

private theorem reads_commaSeparated {x : δ} (hcomma : Ends (bare .comma)) (hm : Ends m) (hc : m.1 ≠ .comma)
    (hx : ∀ y ∈ x :: xs, ItemReads input item R marks Ends y)
    (hs : input.Shows i (withCommas marks (x :: xs) ++ [m])) :
    ∃ as, Forall₂ R as (x :: xs) ∧
      Reads input (fun rec => commaSeparated (item rec)) i as (i + (withCommas marks (x :: xs)).length) := by
  rw [withCommas, append_assoc] at hs
  obtain ⟨a, ha, hreads⟩ := (hx x (mem_cons_self ..)).first hcomma hm hs
  obtain ⟨as, has, hrest⟩ := reads_moreCommas hcomma hm hc (fun y hy => hx y (mem_cons_of_mem _ hy))
    (shows_append.1 hs).2
  refine ⟨a :: as, .cons ha has, hreads.bind (hrest.bind (.pure ?_))⟩
  rw [withCommas, length_append]
  omega

end

/-! ### Leaves and operators -/

section

variable {s : Span}

private theorem legible_number (hk : t.kind = .int ∨ t.kind = .float) : Legible (.number s t) := by
  intro last input i m hs _ _
  rw [written] at hs ⊢
  obtain ⟨⟨t', ht, hc⟩, -⟩ := hs
  have hkind : t'.kind = t.kind := congrArg Prod.fst hc
  refine ⟨t', .ofNumber t', ht, .inl ?_, .number (anySpan _ _) (alike_of_content hc), .atom (.of_forall fun n => ?_)⟩
  · rcases hk with hk | hk <;> rw [hkind, hk] <;> decide
  · refine (bind_ok (token_at ht)).trans ?_
    rcases hk with hk | hk <;> rw [hkind, hk] <;> rfl

private theorem legible_string (hk : t.kind = .string) : Legible (.string s t) := by
  intro last input i m hs _ _
  rw [written] at hs ⊢
  obtain ⟨⟨t', ht, hc⟩, -⟩ := hs
  have hkind : t'.kind = .string := (congrArg Prod.fst hc).trans hk
  refine ⟨t', .ofString t', ht, .inl (by rw [hkind]; decide), .string (anySpan _ _) (alike_of_content hc),
    .atom (.of_forall fun n => ?_)⟩
  refine (bind_ok (token_at ht)).trans ?_
  rw [hkind]
  rfl

private theorem legible_named (hk : t.kind = .identifier) : Legible (.named s t) := by
  intro last input i m hs _ _
  rw [written] at hs ⊢
  obtain ⟨⟨t', ht, hc⟩, -⟩ := hs
  have hkind : t'.kind = .identifier := (congrArg Prod.fst hc).trans hk
  refine ⟨t', .ofName t', ht, .inl (by rw [hkind]; decide), .named (anySpan _ _) (alike_of_content hc),
    .atom (.of_forall fun n => ?_)⟩
  refine (bind_ok (token_at ht)).trans ?_
  rw [hkind]
  rfl

private theorem strength_ne_six (m : Mark) : strength m ≠ 6 := by
  obtain ⟨kind, value⟩ := m
  cases kind <;> simp only [strength] <;> first | decide | (split <;> decide)

variable {op : Token}

private theorem legible_sign (hop : op.kind = .plus ∨ op.kind = .minus) (h : Legible e) : Legible (.unary s op e) := by
  have hnot : op.kind ≠ .keyword := by rcases hop with hop | hop <;> rw [hop] <;> decide
  have hbinding : (Node.unary s op e).binding = 6 := if_neg hnot
  intro last input i m hs hm _
  rw [hbinding] at hm ⊢
  rw [written, if_neg hnot] at hs ⊢
  obtain ⟨⟨t, ht, hc⟩, hs⟩ := hs
  have hkind : t.kind = .plus ∨ t.kind = .minus := by rwa [show t.kind = op.kind from congrArg Prod.fst hc]
  obtain ⟨hj, u, hu, rfl⟩ := Input.Shows.follow hs
  obtain ⟨b, hb, t₁, e', ht₁, ho, halike, hparsed⟩ := h.fit (by decide) hs hm
  have hstrength : strength u.content < 6 := by
    have := strength_ne_six u.content
    split at hm <;> omega
  have hoperand := hparsed.operand ht₁ ho hj hu hb hstrength
  refine ⟨t, .signed t e', ht, .inr (.inr (.inl ⟨Nat.le_refl 6, hkind⟩)),
    .unary (anySpan _ _) (alike_of_content hc) halike,
    .factor ?_⟩
  refine .pass (token_at ht) ?_
  rw [show (t.kind == .plus || t.kind == .minus) = true by rcases hkind with hk | hk <;> rw [hk] <;> rfl]
  exact .pass (a := ()) rfl (hoperand.bind (.pure (by rw [length_cons]; omega)))

private theorem legible_negation (hop : op.content = word "not") (h : Legible e) : Legible (.unary s op e) := by
  have hkeyword : op.kind = .keyword := congrArg Prod.fst hop
  have hbinding : (Node.unary s op e).binding = 0 := if_pos hkeyword
  intro last input i m hs hm _
  rw [hbinding] at hm ⊢
  rw [written, if_pos hkeyword] at hs ⊢
  obtain ⟨⟨t, ht, hc⟩, hs⟩ := hs
  have hword : t.isKeyword "not" = true := isKeyword_of_content (hc.trans hop)
  obtain ⟨-, e', -, -, halike, hreads⟩ := h.whole hs (by split at hm <;> omega)
  refine ⟨t, .signed t e', ht, .inr (.inr (.inr ⟨rfl, hword⟩)), .unary (anySpan _ _) (alike_of_content hc)
    halike, .logic ?_⟩
  refine .pass (isWord_at ht "not") ?_
  rw [hword]
  exact .pass (token_at ht) (.pass (a := ()) rfl (hreads.bind (.pure (by rw [length_cons]; omega))))

private theorem legible_binary {l r : Node} (h1 : 1 ≤ strength op.content) (h5 : strength op.content ≤ 5)
    (hl : Legible l)
    (hr : Legible r) : Legible (.binary s l op r) := by
  intro last input i m hs hm _
  rw [show (Node.binary s l op r).binding = strength op.content from rfl] at hm ⊢
  generalize hp : strength op.content = p at h1 h5 hm ⊢
  rw [written, hp, append_assoc] at hs
  obtain ⟨hj, u, hu, hcu⟩ := hs.head.follow
  obtain ⟨b, hb, t, l', ht, ho, hlalike, hlparsed⟩ := hl.fit (by omega) hs.head (by rw [hp]; exact Nat.le_refl p)
  have hstrength : strength u.content = p := by rw [hcu, hp]
  have hchains := hlparsed.chains ht ho hj hu h1 h5 hb (Nat.le_of_eq hstrength)
  obtain ⟨-, hs⟩ := (shows_append.1 hs).2
  obtain ⟨hj', v, hv, rfl⟩ := Input.Shows.follow hs
  obtain ⟨b', hb', t', r', ht', ho', hralike, hrparsed⟩ := hr.fit (by omega) hs (looser hm (Nat.le_succ p))
  have hreads := hrparsed.reads ht' ho' hj' hv (by omega) (by omega) hb' (by split at hm <;> omega)
  refine ⟨t, .operation l' u r', ht, ho.mono hb, .binary (anySpan _ _) hlalike (alike_of_content hcu) hralike, ?_⟩
  refine .chain h1 h5 ?_
  have hstep := hchains.step h1 h5 hu hstrength hreads
  rw [written, hp, length_append, length_cons]
  convert hstep using 1
  omega

private theorem legible_index {c key : Node} (hc : Legible c) (hkey : Legible key) : Legible (.index s c key) := by
  intro last input i m hs hm _
  rw [show (Node.index s c key).binding = 8 from rfl] at hm ⊢
  rw [written, append_assoc] at hs
  obtain ⟨-, u, hu, hsign⟩ := hs.head.follow
  obtain ⟨b, hb, t, c', ht, ho, hcalike, hcparsed⟩ := hc.fit (by decide) hs.head (by decide)
  obtain ⟨-, hs⟩ := (shows_append.1 hs).2
  obtain ⟨b', hb', -, key', -, -, hkeyalike, hkeyparsed⟩ := hkey.fit (by decide) hs (looser hm (by decide))
  refine ⟨t, .element c' key', ht, ho.mono hb, .index (anySpan _ _) hcalike hkeyalike, .elements ?_⟩
  have hstep := (hcparsed.elements_of_le hb).step hu (kind_of_content hsign) (hkeyparsed.atom_of_le hb')
  rw [written, length_append, length_cons]
  convert hstep using 1
  omega

end

private theorem writtenAfter_eq (separator : Mark) (xs : List Node) :
    writtenAfter separator xs = eachAfter separator (written · true) xs := by
  induction xs with
  | nil => rfl
  | cons x xs ih =>
    rw [writtenAfter, ih]
    rfl

private theorem writtenRow_eq (xs : List Node) : writtenRow xs = withCommas (written · true) xs := by
  cases xs with
  | nil => rfl
  | cons x xs =>
    rw [writtenRow, writtenAfter_eq]
    rfl

def pairMarks (p : Node × Node) : List Mark := p.1.written true ++ bare .colon :: p.2.written true

private theorem writtenPairs_eq (ps : List (Node × Node)) : writtenPairs ps = withCommas pairMarks ps := by
  have hmore (ps : List (Node × Node)) : writtenMorePairs ps = eachAfter (bare .comma) pairMarks ps := by
    induction ps with
    | nil => rfl
    | cons p ps ih => simp [writtenMorePairs, ih, eachAfter, pairMarks]
  cases ps with
  | nil => rfl
  | cons p ps => simp [writtenPairs, hmore, withCommas, pairMarks]

/-- The tokens of a clause of a comprehension, after its `cycle`. -/
def clauseMarks (c : Clause) : List Mark :=
  c.1.content :: word "in" :: (c.2.1.written true ++ eachAfter (word "where") (written · true) c.2.2)

private theorem writtenClauses_eq (cs : List Clause) : writtenClauses cs = eachAfter (word "cycle") clauseMarks cs := by
  induction cs with
  | nil => rfl
  | cons c cs ih => simp [writtenClauses, ih, eachAfter, clauseMarks, writtenAfter_eq]

def EndsExpression (m : Mark) : Prop := strength m = 0

theorem ends_comma : EndsExpression (bare .comma) := rfl

private theorem ends_rsquare : EndsExpression (bare .rsquare) := rfl

private theorem ends_rcurly : EndsExpression (bare .rcurly) := rfl

theorem Legible.item (h : Legible e) (input : Input) :
    ItemReads input (fun rec => rec .logic) (Node.Alike AnyPlace) (written · true) EndsExpression e := by
  intro i m hm hs
  obtain ⟨-, e', -, -, halike, hreads⟩ := h.whole hs hm
  exact ⟨e', halike, hreads⟩

theorem Legible.first (h : Legible e) (hm : strength m = 0)
    (hs : input.Shows i (e.written true ++ (eachAfter (bare .comma) (written · true) xs ++ [m]))) :
    ∃ t, input.At i t ∧ Opens 0 t := by
  obtain ⟨m', rest, hmore, hm'⟩ := eachAfter_head (bare .comma) m (written · true) xs
  rw [hmore] at hs
  obtain ⟨t, -, ht, ho, -⟩ := h.whole hs.head (by rcases hm' with rfl | rfl <;> [rfl; exact hm])
  exact ⟨t, ht, ho⟩

/-- The tokens between two brackets, and what stands around them. -/
theorem Input.Shows.brackets (hs : input.Shows i (bare opening :: (ms ++ [bare closing]) ++ [m])) :
    ∃ t u v, input.At i t ∧ t.kind = opening ∧ input.Shows (i + 1) (ms ++ [bare closing]) ∧
      (input.At (i + 1 + ms.length) u ∧ u.kind = closing) ∧ input.At (i + 1 + ms.length + 1) v ∧
      i + (bare opening :: (ms ++ [bare closing])).length = i + 1 + ms.length + 1 := by
  have hlength : i + (bare opening :: (ms ++ [bare closing])).length = i + 1 + ms.length + 1 := by
    simp only [length_append, length_cons, length_nil]
    omega
  obtain ⟨-, v, hv, -⟩ := hs.follow
  obtain ⟨⟨t, ht, hopen⟩, hs⟩ := hs
  have hs := (shows_append.1 hs).1
  obtain ⟨-, u, hu, hclosing⟩ := hs.follow
  exact ⟨t, u, v, ht, kind_of_content hopen, hs, ⟨hu, kind_of_content hclosing⟩, hlength ▸ hv, hlength⟩

/-- A row of expressions and the bracket that closes it. -/
theorem reads_bracketed (h : ∀ x ∈ xs, Legible x) (hs : strength (bare closing) = 0)
    (hc : closing ≠ .comma) (hk : closing ∉ .keyword :: .plus :: .minus :: openKinds)
    (hshows : input.Shows i (writtenRow xs ++ [bare closing])) (details : String) :
    ∃ xs', Forall₂ (Node.Alike AnyPlace) xs' xs ∧
      Reads input (fun rec => bracketed rec closing details) i xs' (i + (writtenRow xs).length + 1) := by
  rw [writtenRow_eq] at hshows ⊢
  obtain ⟨-, u, hu, hclosing⟩ := hshows.follow
  cases xs with
  | nil => exact ⟨[], .nil, .pass (skipKind_eq hu (kind_of_content hclosing)) (.pure rfl)⟩
  | cons x xs =>
    obtain ⟨xs', halike, hreads⟩ := reads_commaSeparated ends_comma hs hc (fun y hy => (h y hy).item input) hshows
    rw [withCommas, append_assoc] at hshows
    obtain ⟨t, ht, ho⟩ := (h x (mem_cons_self ..)).first hs hshows
    exact ⟨xs', halike, .pass (skipKind_opens ht ho hk)
      (hreads.bind (.pass (expectKind_eq hu (kind_of_content hclosing) details) (.pure rfl)))⟩

/-! ### Calls and collections -/

section

variable {s : Span}

private theorem legible_apply {f : Node} (hf : Legible f) (hxs : ∀ x ∈ xs, Legible x) : Legible (.apply s f xs) := by
  intro last input i m hs _ _
  rw [show (Node.apply s f xs).binding = 7 from rfl]
  rw [written, append_assoc] at hs
  obtain ⟨-, u, hu, hopen⟩ := hs.head.follow
  obtain ⟨b, hb, t, f', ht, ho, hfalike, hfparsed⟩ := hf.fit (by decide) hs.head (by decide)
  obtain ⟨-, hs⟩ := (shows_append.1 hs).2
  obtain ⟨xs', hxalike, hreads⟩ := reads_bracketed hxs rfl (by decide) (by decide) (shows_append.1 hs).1
    "Expected ',' or ')'"
  refine ⟨t, .call f' xs', ht, ho.mono (by omega), .apply (anySpan _ _) hfalike hxalike, .call ?_⟩
  refine (hfparsed.atom_of_le hb).bind (.pass (skipKind_eq hu (kind_of_content hopen)) (hreads.bind (.pure ?_)))
  rw [written]
  simp only [length_append, length_cons, length_nil]
  omega

private theorem reads_collection {make : Span → List Node → Node} (hxs : ∀ x ∈ xs, Legible x)
    (hs : strength (bare closing) = 0) (hc : closing ≠ .comma) (hk : closing ∉ .keyword :: .plus :: .minus :: openKinds)
    (hshows : input.Shows i (bare opening :: (writtenRow xs ++ [bare closing]) ++ [m])) (expected details : String) :
    ∃ t span xs', input.At i t ∧ t.kind = opening ∧ Forall₂ (Node.Alike AnyPlace) xs' xs ∧
      Reads input (fun rec => collection rec opening closing expected details make) i (make span xs')
        (i + (bare opening :: (writtenRow xs ++ [bare closing])).length) := by
  obtain ⟨t, -, v, ht, hkind, hrow, -, hv, hlength⟩ := hshows.brackets
  obtain ⟨xs', halike, hreads⟩ := reads_bracketed hxs hs hc hk hrow details
  refine ⟨t, ⟨t.start, v.stop⟩, xs', ht, hkind, halike, ?_⟩
  rw [hlength]
  exact .pass (start_at ht) (.pass (expectKind_eq ht hkind expected) (hreads.bind (.pass (stop_at hv) (.pure rfl))))

private theorem legible_tuple (hxs : ∀ x ∈ xs, Legible x) : Legible (.tuple s xs) := by
  intro last input i m hs _ _
  rw [written] at hs ⊢
  obtain ⟨t, span, xs', ht, hkind, halike, hreads⟩ := @reads_collection _ _ _ _ _ _ Node.tuple hxs rfl (by decide)
    (by decide) hs "Expected '<'" "Expected ',' or '>'"
  refine ⟨t, .tuple span xs', ht, .inl (by rw [hkind]; decide), .tuple (anySpan _ _) halike,
    .atom (.pass (token_at ht) ?_)⟩
  rwa [hkind]

private theorem legible_set (hxs : ∀ x ∈ xs, Legible x) : Legible (.set s xs) := by
  intro last input i m hs _ _
  rw [written] at hs ⊢
  obtain ⟨t, span, xs', ht, hkind, halike, hreads⟩ := @reads_collection _ _ _ _ _ _ Node.set hxs rfl (by decide)
    (by decide) hs "Expected '\x7b:'" "Expected ',' or ':\x7d'"
  refine ⟨t, .set span xs', ht, .inl (by rw [hkind]; decide), .set (anySpan _ _) halike, .atom (.pass (token_at ht) ?_)⟩
  rwa [hkind]

private theorem list_after {t₁ : Token} {x x' : Node} (ht : input.At i t) (hk : t.kind = .lsquare)
    (ht₁ : input.At (i + 1) t₁)
    (ho : Opens 0 t₁) (hx : Reads input (fun rec => rec .logic) (i + 1) x k) (h : Reads input (fun rec => do
      if ← isWord "cycle" then
        let clauses ← many (skipWord "cycle") (clause rec)
        expectKind .rsquare "Expected ']' to close list comprehension"
        return Node.comprehension ⟨t.start, ← stop⟩ x clauses
      else
        let more ← many (skipKind .comma) (rec .logic)
        expectKind .rsquare "Expected ',' or ']'"
        return Node.list ⟨t.start, ← stop⟩ (x :: more)) k x' j) : Reads input atom i x' j := by
  refine .pass (token_at ht) ?_
  rw [hk]
  exact .pass (start_at ht) (.pass (expectKind_eq ht hk _) (.pass (skipKind_opens ht₁ ho (by decide)) (hx.bind h)))

private theorem legible_list (hxs : ∀ x ∈ xs, Legible x) : Legible (.list s xs) := by
  intro last input i m hs _ _
  rw [written, writtenRow_eq] at hs ⊢
  obtain ⟨t, u, v, ht, hkind, hs, hu, hv, hlength⟩ := hs.brackets
  rw [hlength]
  refine ⟨t, ?_⟩
  cases xs with
  | nil =>
    refine ⟨.list ⟨t.start, v.stop⟩ [], ht, .inl (by rw [hkind]; decide), .list (anySpan _ _) .nil,
      .atom (.pass (token_at ht) ?_)⟩
    rw [hkind]
    exact .pass (start_at ht) (.pass (expectKind_eq ht hkind _)
      (.pass (skipKind_eq hu.1 hu.2) (.pass (stop_at hv) (.pure rfl))))
  | cons x xs =>
    rw [withCommas, append_assoc] at hs
    obtain ⟨t₁, ht₁, ho⟩ := (hxs x (mem_cons_self ..)).first rfl hs
    obtain ⟨x', hx, hreads⟩ := ((hxs x (mem_cons_self ..)).item input).first ends_comma ends_rsquare hs
    have hmore := (shows_append.1 hs).2
    obtain ⟨xs', halike, hrest⟩ := reads_moreCommas ends_comma ends_rsquare (by decide)
      (fun y hy => (hxs y (mem_cons_of_mem _ hy)).item input) hmore
    -- what follows the first item is a comma or the bracket, and no word
    obtain ⟨m', rest, heq, hm'⟩ := eachAfter_head (bare .comma) (bare .rsquare) (written · true) xs
    rw [heq] at hmore
    obtain ⟨⟨u', hu', hc'⟩, -⟩ := hmore
    have hword := isWord_at hu' "cycle"
    rw [not_isKeyword_of_content hc' (by rcases hm' with rfl | rfl <;> simp [bare, word])] at hword
    refine ⟨.list ⟨t.start, v.stop⟩ (x' :: xs'), ht, .inl (by rw [hkind]; decide),
      .list (anySpan _ _) (.cons hx halike), .atom ?_⟩
    simp only [withCommas, length_append, ← Nat.add_assoc] at hu hv ⊢
    exact list_after ht hkind ht₁ ho hreads (.pass hword (hrest.bind (.pass (expectKind_eq hu.1 hu.2 _)
      (.pass (stop_at hv) (.pure rfl)))))

def EndsClause (m : Mark) : Prop := strength m = 0 ∧ m ≠ word "where"

private theorem clause_item {c : Clause} (hname : c.1.kind = .identifier) (hitems : Legible c.2.1)
    (hconditions : ∀ x ∈ c.2.2, Legible x) (input : Input) :
    ItemReads input clause (Node.ClauseAlike AnyPlace) clauseMarks EndsClause c := by
  obtain ⟨name, items, conditions⟩ := c
  intro i m hm hs
  obtain ⟨⟨t, ht, hc⟩, ⟨w, hw, hin⟩, hs⟩ := hs
  rw [append_eq, append_assoc] at hs
  obtain ⟨items', hitems', hreads⟩ : ∃ a, Node.Alike AnyPlace a items ∧
      Reads input (fun rec => rec .logic) (i + 1 + 1) a (i + 1 + 1 + (items.written true).length) := by
    obtain ⟨m', rest, hmore, hm'⟩ := eachAfter_head (word "where") m (written · true) conditions
    rw [hmore] at hs
    refine hitems.item input _ m' ?_ hs.head
    rcases hm' with rfl | rfl
    · rfl
    · exact hm.1
  have hwhere : EndsExpression (word "where") := rfl
  obtain ⟨conditions', hconditions', hrest⟩ := reads_moreWords hwhere hm.1 hm.2
    (fun x hx => (hconditions x hx).item input) (shows_append.1 hs).2
  refine ⟨(t, items', conditions'), .mk (alike_of_content hc) hitems' hconditions', ?_⟩
  refine .pass (identifier_at ht ((congrArg Prod.fst hc).trans hname) _)
    (.pass (expectWord_at hw (isKeyword_of_content hin) _)
    (hreads.bind (hrest.bind (.pure ?_))))
  simp only [clauseMarks, length_append, length_cons]
  omega

private theorem legible_comprehension {cs : List Clause} (he : Legible e) (hne : cs ≠ [])
    (hnames : ∀ c ∈ cs, c.1.kind = .identifier) (hitems : ∀ c ∈ cs, Legible c.2.1)
    (hconditions : ∀ c ∈ cs, ∀ x ∈ c.2.2, Legible x) : Legible (.comprehension s e cs) := by
  intro last input i m hs _ _
  rw [written, writtenClauses_eq, ← append_assoc] at hs ⊢
  obtain ⟨t, u, v, ht, hkind, hs, hu, hv, hlength⟩ := hs.brackets
  rw [append_assoc] at hs
  have hclauses := (shows_append.1 hs).2
  have hcycle : EndsClause (word "cycle") := ⟨rfl, by simp [word]⟩
  obtain ⟨cs', halike, hrest⟩ := reads_moreWords hcycle ⟨rfl, by simp [bare, word]⟩ (by simp [bare, word])
    (fun c hc => clause_item (hnames c hc) (hitems c hc) (hconditions c hc) input) hclauses
  obtain ⟨c, cs, rfl⟩ := exists_cons_of_ne_nil hne
  obtain ⟨t₁, e', ht₁, ho, healike, hreads⟩ := he.whole (m := word "cycle") hs.head rfl
  obtain ⟨⟨w, hw, hc⟩, -⟩ := hclauses
  have hword := isWord_at hw "cycle"
  rw [isKeyword_of_content hc] at hword
  refine ⟨t, .comprehension ⟨t.start, v.stop⟩ e' cs', ht, .inl (by rw [hkind]; decide),
    .comprehension (anySpan _ _) healike halike,
    .atom ?_⟩
  rw [hlength]
  simp only [length_append, ← Nat.add_assoc] at hu hv ⊢
  exact list_after ht hkind ht₁ ho hreads (.pass hword (hrest.bind (.pass (expectKind_eq hu.1 hu.2 _)
    (.pass (stop_at hv) (.pure rfl)))))

private theorem pair_item {p : Node × Node} (hkey : Legible p.1) (hvalue : Legible p.2) (input : Input) :
    ItemReads input pair (Node.PairAlike AnyPlace) pairMarks EndsExpression p := by
  obtain ⟨key, value⟩ := p
  intro i m hm hs
  rw [pairMarks, append_assoc] at hs
  obtain ⟨key', hkey', hreads⟩ := hkey.item input i (bare .colon) rfl hs.head
  obtain ⟨⟨t, ht, hc⟩, hs⟩ := (shows_append.1 hs).2
  obtain ⟨value', hvalue', hrest⟩ := hvalue.item input _ m hm hs
  refine ⟨(key', value'), .mk hkey' hvalue', hreads.bind
    (.pass (expectKind_eq ht (kind_of_content hc) _) (hrest.bind (.pure ?_)))⟩
  simp only [pairMarks, length_append, length_cons]
  omega

private theorem legible_dict {ps : List (Node × Node)} (hkeys : ∀ p ∈ ps, Legible p.1)
    (hvalues : ∀ p ∈ ps, Legible p.2) :
    Legible (.dict s ps) := by
  intro last input i m hs _ _
  rw [written, writtenPairs_eq] at hs ⊢
  obtain ⟨t, u, v, ht, hkind, hs, hu, hv, hlength⟩ := hs.brackets
  rw [hlength]
  refine ⟨t, ?_⟩
  cases ps with
  | nil =>
    refine ⟨.dict ⟨t.start, v.stop⟩ [], ht, .inl (by rw [hkind]; decide), .dict (anySpan _ _) .nil,
      .atom (.pass (token_at ht) ?_)⟩
    rw [hkind]
    exact .pass (start_at ht) (.pass (expectKind_eq ht hkind _)
      (.pass (skipKind_eq hu.1 hu.2) (.pass (stop_at hv) (.pure rfl))))
  | cons p ps =>
    obtain ⟨ps', halike, hreads⟩ := reads_commaSeparated ends_comma ends_rcurly (by decide)
      (fun q hq => pair_item (hkeys q hq) (hvalues q hq) input) hs
    rw [withCommas, pairMarks, append_assoc, append_assoc] at hs
    obtain ⟨t₁, -, ht₁, ho, -⟩ := (hkeys p (mem_cons_self ..)).whole hs.head rfl
    refine ⟨.dict ⟨t.start, v.stop⟩ ps', ht, .inl (by rw [hkind]; decide), .dict (anySpan _ _) halike,
      .atom (.pass (token_at ht) ?_)⟩
    rw [hkind]
    exact .pass (start_at ht) (.pass (expectKind_eq ht hkind _) (.pass (skipKind_opens ht₁ ho (by decide))
      (hreads.bind (.pass (expectKind_eq hu.1 hu.2 _) (.pass (stop_at hv) (.pure rfl))))))

private theorem parameter_item {p : Token} (hk : p.kind = .identifier) (input : Input) (details : String) :
    ItemReads input (fun _ => identifier details) (Token.Alike AnyPlace) (fun t => [t.content]) (fun _ => True) p := by
  rintro i m - ⟨⟨t, ht, hc⟩, -⟩
  exact ⟨t, alike_of_content hc, .of_forall fun _ => identifier_at ht ((congrArg Prod.fst hc).trans hk) details⟩

private theorem legible_lambda {params : List Token} {b : Node} (hparams : ∀ p ∈ params, p.kind = .identifier)
    (hb : Legible b) :
    Legible (.lambda s params b) := by
  intro last input i m hs hm hlast
  obtain rfl := hlast rfl
  rw [written] at hs ⊢
  obtain ⟨-, v, hv, -⟩ := hs.follow
  obtain ⟨⟨t, ht, hopen⟩, hs⟩ := hs
  have hword := isKeyword_of_content hopen
  rw [append_eq, append_assoc] at hs
  have hrow := hs.head
  obtain ⟨⟨a, ha, harrow⟩, hs⟩ := (shows_append.1 hs).2
  obtain ⟨-, b', -, -, halike, hreads⟩ := hb.whole hs (Nat.le_zero.1 hm)
  have hlength : i + (word "lambda" :: (withCommas (fun t => [Token.content t]) params ++ bare .arrow ::
    b.written true)).length =
      i + 1 + (withCommas (fun t => [Token.content t]) params).length + 1 + (b.written true).length := by
    simp only [length_append, length_cons]
    omega
  rw [hlength] at hv ⊢
  have hatom {e : Node} {j : Nat} (h : Reads input lambda i e j) : Reads input atom i e j := by
    refine .pass (token_at ht) ?_
    rw [kind_of_isKeyword hword]
    simp only [isKeyword_of_isKeyword hword]
    exact h
  have hrest (params' : List Token) : Reads input (fun rec => do
      expectKind .arrow "Expected '=>'"
      let body ← rec .logic
      return Node.lambda ⟨t.start, ← stop⟩ params' body)
        (i + 1 + (withCommas (fun t => [Token.content t]) params).length)
        (.lambda ⟨t.start, v.stop⟩ params' b') _ :=
    .pass (expectKind_eq ha (kind_of_content harrow) _) (hreads.bind (.pass (stop_at hv) (.pure rfl)))
  cases params with
  | nil =>
    refine ⟨t, .lambda ⟨t.start, v.stop⟩ [] b', ht, .inr (.inl hword), .lambda (anySpan _ _) .nil halike,
      .atom (hatom ?_)⟩
    refine .pass (start_at ht) (.pass (expectWord_at ht hword _) (.pass (isKind_at ha _) ?_))
    rw [kind_of_content harrow]
    exact hrest []
  | cons p params =>
    obtain ⟨params', hparams', hnames⟩ := reads_commaSeparated trivial trivial (by decide)
      (fun q hq => parameter_item (hparams q hq) input "Expected identifier") hrow
    obtain ⟨⟨t₁, ht₁, hc⟩, -⟩ := hrow
    have hfirst : t₁.kind = .identifier := (congrArg Prod.fst hc).trans (hparams p (mem_cons_self ..))
    refine ⟨t, .lambda ⟨t.start, v.stop⟩ params' b', ht, .inr (.inl hword), .lambda (anySpan _ _) hparams' halike,
      .atom (hatom ?_)⟩
    refine .pass (start_at ht) (.pass (expectWord_at ht hword _) (.pass (isKind_at ht₁ _) ?_))
    rw [hfirst]
    exact hnames.bind (hrest params')

end

/-! ### Programs -/

theorem legible_of_expression (h : e.Expression) : Legible e := by
  induction h with
  | number hk => exact legible_number hk
  | string hk => exact legible_string hk
  | named hk => exact legible_named hk
  | sign hop _ ih => exact legible_sign hop ih
  | negation hop _ ih => exact legible_negation hop ih
  | binary h1 h5 _ _ ihl ihr => exact legible_binary h1 h5 ihl ihr
  | apply _ _ ihf ihxs => exact legible_apply ihf ihxs
  | index _ _ ihc ihk => exact legible_index ihc ihk
  | list _ ih => exact legible_list ih
  | tuple _ ih => exact legible_tuple ih
  | set _ ih => exact legible_set ih
  | dict _ _ ihk ihv => exact legible_dict ihk ihv
  | lambda hparams _ ih => exact legible_lambda hparams ih
  | comprehension _ hne hnames _ _ ihe ihi ihc => exact legible_comprehension ihe hne hnames ihi ihc

private theorem reads_statement (ht : input.At i t) (ho : Opens 0 t) (h : Reads input (fun rec => rec .logic) i e j) :
    Reads input (fun rec => rec .statement) i e j := by
  have noWord (w : String) (hl : "lambda" ≠ w) (hn : "not" ≠ w) : isWord w input i = .ok false i := by
    rw [isWord_at ht, ho.isKeyword hl fun _ => hn]
  have noSkip (w : String) (hl : "lambda" ≠ w) (hn : "not" ≠ w) : skipWord w input i = .ok false i := by
    rw [skipWord_at ht, ho.isKeyword hl fun _ => hn]
    rfl
  have hexpr : Reads input expression i e j := .pass (noSkip "put" (by decide) (by decide))
    (.pass (noSkip "keep" (by decide) (by decide)) (.pass (noSkip "show" (by decide) (by decide)) h))
  have hstatement : Reads input statement i (e, 0) j := .pass (start_at ht)
    (.pass (noWord "bring" (by decide) (by decide))
    (.pass (noWord "share" (by decide) (by decide)) (.pass (noSkip "give" (by decide) (by decide))
      (.pass (noSkip "cut" (by decide) (by decide)) (.pass (noSkip "skip" (by decide) (by decide))
        (.bind (hexpr.mono fun _ h => reword_ok h _) (.pure rfl)))))))
  filter_upwards [eventually_succ hstatement] with _ ⟨n, hn, h⟩
  rw [hn]
  exact bind_ok h

/-- An expression after which no statement is found before the end of the text is a whole program. -/
theorem reads_only (ht : input.At 0 t) (ho : Opens 0 t) (h : Reads input (fun rec => rec .logic) 0 e j)
    (hafter : Reads input (statementsAfter · (input.lexemes.size + 1)) j ([], 0) k) (hu : input.At k u)
    (heof : u.kind = .eof) : Reads input program 0 (.ok (.list ⟨t.start, u.stop⟩ [e]), 0) k := by
  have hstatements : Reads input statements 0 (.list ⟨t.start, u.stop⟩ [e], 0) k := by
    refine .pass (start_at ht) (.pass (newlines_none ht (ho.kind_ne (by decide))) (.pass (isKind_at ht .eof) ?_))
    rw [beq_false_of_ne (ho.kind_ne (by decide))]
    exact (reads_statement ht ho h).bind (.pass rfl (hafter.bind (.pass (stop_at hu) (.pure rfl))))
  refine hstatements.bind (.pass (isKind_at hu .eof) ?_)
  rw [heof]
  exact .pure rfl

/-- An expression that is followed by the end of the text is a whole program. -/
theorem reads_program (hx : Legible e) (hs : input.Shows 0 (e.written true ++ [bare .eof])) :
    ∃ span e', e'.Alike AnyPlace e ∧ Reads input program 0 (.ok (.list span [e']), 0) (e.written true).length := by
  obtain ⟨hj, u, hu, hend⟩ := hs.follow
  have heof := kind_of_content hend
  obtain ⟨t, e', ht, ho, halike, hreads⟩ := hx.whole hs rfl
  rw [Nat.zero_add] at hu hreads
  have hnone : Reads input (statementsAfter · (input.lexemes.size + 1)) (e.written true).length ([], 0) _ :=
    .pass (newlines_none hu (by rw [heof]; decide)) (.pure rfl)
  exact ⟨⟨t.start, u.stop⟩, e', halike, reads_only ht ho hreads hnone hu heof⟩

/-- Tokens that hold what the tokens of an expression hold, and then the end of the text, are read as that
expression. -/
theorem parse_written (he : e.Expression) {ts : List Token}
    (hts : ts.map Token.content = e.written true ++ [bare .eof]) :
    ∃ span e', parse (ts.map .token) = .ok (.list span [e']) ∧ e'.Alike AnyPlace e := by
  have hs : (Input.ofList (ts.map .token)).Shows 0 (e.written true ++ [bare .eof]) := hts ▸ Input.shows_ofList [] ts
  obtain ⟨span, e', halike, hreads⟩ := reads_program (legible_of_expression he) hs
  have heof : ∃ t ∈ ts, t.kind = .eof := by
    obtain ⟨t, ht, hc⟩ := mem_map.1 (hts ▸ mem_append_right _ (mem_singleton.2 rfl) :
      bare .eof ∈ ts.map Token.content)
    exact ⟨t, ht, kind_of_content hc⟩
  obtain ⟨n, hn⟩ := hreads.exists
  exact ⟨span, e', parse_of_program heof hn, halike⟩

namespace Sample

def at_ (kind : Kind) (value : Scalar) : Token := ⟨kind, value, .start ⟨"w", ""⟩, .start ⟨"w", ""⟩⟩

def span : Span := ⟨.start ⟨"w", ""⟩, .start ⟨"w", ""⟩⟩

def name (s : String) : Node := .named span (at_ .identifier (.text s))

/-- A sum in a product, and a function where nothing follows. -/
def product : Node :=
  .binary span (.binary span (name "x") (at_ .plus .absent) (name "y")) (at_ .mul .absent)
    (.lambda span [at_ .identifier (.text "z")] (.unary span (at_ .keyword (.text "not")) (name "z")))

def productTokens : List Token :=
  [at_ .lparen .absent, at_ .identifier (.text "x"), at_ .plus .absent, at_ .identifier (.text "y"),
    at_ .rparen .absent,
    at_ .mul .absent, at_ .keyword (.text "lambda"), at_ .identifier (.text "z"), at_ .arrow .absent,
    at_ .keyword (.text "not"), at_ .identifier (.text "z"), at_ .eof .absent]

theorem parse_written_product :
    ∃ span e', parse (productTokens.map .token) = .ok (.list span [e']) ∧ e'.Alike AnyPlace product := by
  refine parse_written ?_ rfl
  refine .binary (by decide) (by decide) ?_ (.lambda (by decide) (.negation rfl (.named rfl)))
  exact .binary (by decide) (by decide) (.named rfl) (.named rfl)

end Sample

end Utterance.Grammar

import Utterance.Proofs.Composition

/-!
# Counts and places of readings

Among tokens of which only the last one is the end of the text (`Tape`), no rule of the grammar passes that one, every
diagnostic has the place of the token where its reading stands, and the counts of passed tokens tell the index, so
that what is taken back after an attempt is what the attempt has passed (`reading_exact`).

`Tape.Meets` says so of a reading, with a condition on what was read. A rule meets it if the parts that it reads do,
which are those further on, and at the same token those of lower rank (`Tape.keeps_composed`). Between two parts that
begin at the same token the rank goes down, so that a bound on the depth of four times the number of tokens is never
reached (`Tape.read_keeps`).
-/

namespace Utterance.Grammar

open Reading List

open Token (Kind)

variable {n : Nat} {ts : List Token}

/-- How many other parts can be read one within the other at the first token of a part. -/
def Part.rank : Part → Nat
  | .factor => 0
  | .logic => 1
  | .statement => 2
  | .statements => 3

def Rule.unseen : Rule → Nat
  | .bring | .share => 1
  | _ => 0

/-- Tokens up to an index, with the end of the text there and nowhere before. -/
structure Tape where
  input : Input
  last : Nat
  ends : ∀ i ≤ last, ∃ t, input.At i t ∧ (t.kind = .eof ↔ i = last)
  /-- Whether readings may reach their bound. -/
  shallow : Prop

namespace Tape

variable {T : Tape} {α β : Type} {i j : Nat} {t : Token}

/-- A diagnostic has the place of the token at an index. -/
def Marks (T : Tape) (d : Diagnostic) (i : Nat) : Prop :=
  ∃ t, T.input.At i t ∧ d.start = some t.start ∧ d.stop = some t.stop

/-- A reading ends before the end of the text or there, with a value and an index as said or with a diagnostic that
has the place where it ends. -/
def Meets (T : Tape) (p : Reading α) (i : Nat) (Q : α → Nat → Prop) : Prop :=
  match p T.input i with
  | .ok a j => j ≤ T.last ∧ Q a j
  | .fail d j => j ≤ T.last ∧ T.Marks d j
  | .fault _ => False
  | .exhausted => T.shallow

def Keeps (T : Tape) (p : Reading α) (i : Nat) : Prop := T.Meets p i fun _ _ => True

def KeepsFrom (T : Tape) (p : Reading α) (i : Nat) : Prop := ∀ j, i ≤ j → j ≤ T.last → T.Keeps p j

theorem lt_of_kind (hi : i ≤ T.last) (h : T.input.At i t) (hk : t.kind ≠ .eof) : i < T.last := by
  obtain ⟨u, hu, heof⟩ := T.ends i hi
  rw [h.unique hu] at hk
  exact Nat.lt_of_le_of_ne hi fun h => hk (heof.2 h)

variable {rec : Recursion} {p : Reading α}

theorem KeepsFrom.mono (h : T.KeepsFrom p i) (hij : i ≤ j) : T.KeepsFrom p j := fun k hjk =>
  h k (Nat.le_trans hij hjk)

theorem marks_invalidSyntax {p q : Position} (hp : ∃ t, T.input.At i t ∧ p = t.start)
    (hq : ∃ t, T.input.At i t ∧ q = t.stop) (details : String) : T.Marks (.invalidSyntax p q details) i := by
  obtain ⟨t, ht, rfl⟩ := hp
  obtain ⟨u, hu, rfl⟩ := hq
  rw [hu.unique ht]
  exact ⟨t, ht, rfl, rfl⟩

namespace Meets

variable {Q Q' : α → Nat → Prop}

theorem of_ok {a : α} (h : p T.input i = .ok a j) (hj : j ≤ T.last) (hQ : Q a j) : T.Meets p i Q := by
  rw [Meets, h]
  exact ⟨hj, hQ⟩

theorem imp (h : T.Meets p i Q) (hQ : ∀ a j, i ≤ j → Q a j → Q' a j) : T.Meets p i Q' := by
  unfold Meets at h ⊢
  cases hp : p T.input i with
  | ok a j =>
    rw [hp] at h
    exact ⟨h.1, hQ a j (le_of_ok hp) h.2⟩
  | fail | fault | exhausted => rwa [hp] at h

theorem keeps (h : T.Meets p i Q) : T.Keeps p i := h.imp fun _ _ _ _ => trivial

theorem bind {f : α → Reading β} {R : β → Nat → Prop} (h : T.Meets p i Q)
    (hf : ∀ a j, i ≤ j → j ≤ T.last → Q a j → T.Meets (f a) j R) : T.Meets (p >>= f) i R := by
  unfold Meets at h ⊢
  rw [reply_bind]
  cases hp : p T.input i with
  | ok a j =>
    rw [hp] at h
    exact hf a j (le_of_ok hp) h.1 h.2
  | fail | fault | exhausted => rwa [hp] at h

theorem ite {c : Prop} {_ : Decidable c} {q : Reading α} (hp : c → T.Meets p i Q) (hq : ¬c → T.Meets q i Q) :
    T.Meets (if c then p else q) i Q := by
  split
  · next h => exact hp h
  · next h => exact hq h

end Meets

theorem Keeps.bind {f : α → Reading β} {R : β → Nat → Prop} (h : T.Keeps p i)
    (hf : ∀ a j, i ≤ j → j ≤ T.last → T.Meets (f a) j R) : T.Meets (p >>= f) i R :=
  Meets.bind h fun a j hij hj _ => hf a j hij hj

section

variable (hi : i ≤ T.last)

include hi

theorem meets_pure {a : α} {Q : α → Nat → Prop} (hQ : Q a i) : T.Meets (Pure.pure a) i Q := .of_ok rfl hi hQ

theorem keeps_pure (a : α) : T.Keeps (Pure.pure a) i := meets_pure hi trivial

theorem keeps_bound : T.Meets bound i fun _ j => j = i := .of_ok rfl hi rfl

theorem meets_tokenFor (property : String) : T.Meets (tokenFor property) i fun t j => j = i ∧ T.input.At i t := by
  obtain ⟨t, ht, -⟩ := T.ends i hi
  exact .of_ok (tokenFor_at ht property) hi ⟨rfl, ht⟩

theorem meets_token : T.Meets token i fun t j => j = i ∧ T.input.At i t := meets_tokenFor hi _

theorem meets_isKind (kind : Kind) :
    T.Meets (isKind kind) i fun b j => j = i ∧ (b = true → kind ≠ .eof → i < T.last) := by
  refine (meets_token hi).bind fun t j _ hj ⟨hji, ht⟩ => meets_pure hj ⟨hji, fun hb hk => ?_⟩
  exact lt_of_kind hi ht (eq_of_beq hb ▸ hk)

theorem meets_isWord (word : String) : T.Meets (isWord word) i fun b j => j = i ∧ (b = true → i < T.last) := by
  refine (meets_tokenFor hi _).bind fun t j _ hj ⟨hji, ht⟩ => meets_pure hj ⟨hji, fun hb => ?_⟩
  exact lt_of_kind hi ht (ne_eof_of_isKeyword hb)

theorem meets_start : T.Meets start i fun p j => j = i ∧ ∃ t, T.input.At i t ∧ p = t.start := by
  obtain ⟨t, ht, -⟩ := T.ends i hi
  exact .of_ok (start_at ht) hi ⟨rfl, t, ht, rfl⟩

theorem meets_stop : T.Meets stop i fun p j => j = i ∧ ∃ t, T.input.At i t ∧ p = t.stop := by
  obtain ⟨t, ht, -⟩ := T.ends i hi
  exact .of_ok (stop_at ht) hi ⟨rfl, t, ht, rfl⟩

theorem meets_refuse (details : String) (Q : α → Nat → Prop) : T.Meets (refuse details) i Q := by
  refine (meets_start hi).bind fun p j _ hj ⟨hji, hp⟩ => ?_
  subst hji
  refine (meets_stop hj).bind fun q k _ hk ⟨hkj, hq⟩ => ?_
  subst hkj
  exact ⟨hk, marks_invalidSyntax hp hq details⟩

end

theorem meets_advance (hi : i < T.last) : T.Meets advance i fun _ j => i < j := .of_ok rfl hi (Nat.lt_succ_self i)

section

variable (hi : i ≤ T.last)

include hi

theorem meets_passing {p : Reading α} (h : Passing p) : T.Meets p i fun _ j => i < j := by
  cases h with
  | @kind kind details hk =>
    refine (meets_isKind hi kind).bind fun b j _ hj ⟨hji, hb⟩ => ?_
    subst hji
    exact .ite (fun h => meets_advance (hb h hk)) fun _ => meets_refuse hj details _
  | @word word details =>
    refine (meets_isWord hi word).bind fun b j _ hj ⟨hji, hb⟩ => ?_
    subst hji
    exact .ite (fun h => meets_advance (hb h)) fun _ => meets_refuse hj details _
  | @name details =>
    refine (meets_isKind hi .identifier).bind fun b j _ hj ⟨hji, hb⟩ => ?_
    subst hji
    refine .ite (fun h => ?_) fun _ => meets_refuse hj details _
    refine (meets_token hj).bind fun t k _ _ ⟨hkj, _⟩ => ?_
    subst hkj
    exact (meets_advance (hb h (by decide))).bind fun _ m _ hm hlt => meets_pure hm hlt

theorem meets_skipping {p : Reading Bool} (h : Skipping p) :
    T.Meets p i fun b j => if b = true then i < j else j = i := by
  cases h with
  | @kind kind hk =>
    refine (meets_isKind hi kind).bind fun b j _ hj ⟨hji, hb⟩ => ?_
    subst hji
    refine .ite (fun h => ?_) fun _ => meets_pure hj rfl
    exact (meets_advance (hb h hk)).bind fun _ k _ hk hlt => meets_pure hk hlt
  | @word word =>
    refine (meets_isWord hi word).bind fun b j _ hj ⟨hji, hb⟩ => ?_
    subst hji
    refine .ite (fun h => ?_) fun _ => meets_pure hj rfl
    exact (meets_advance (hb h)).bind fun _ k _ hk hlt => meets_pure hk hlt

end

theorem keeps_skipAll (hi : i ≤ T.last) {kind : Kind} (hk : kind ≠ .eof) (n : Nat) : T.Keeps (skipAll kind n) i := by
  induction n generalizing i with
  | zero => exact keeps_pure hi 0
  | succ n ih =>
    refine (meets_skipping hi (.kind hk)).bind fun b j _ hj _ => .ite (fun _ => ?_) fun _ => keeps_pure hj 0
    exact (ih hj).bind fun m k _ hk => keeps_pure hk (m + 1)

theorem keeps_newlines (hi : i ≤ T.last) : T.Keeps newlines i :=
  (keeps_bound hi).bind fun n _ _ hj _ => keeps_skipAll hj (by decide) n

theorem Keeps.reword (hi : i ≤ T.last) (h : T.Keeps p i) (details : String) : T.Keeps (p.reword details) i := by
  unfold Keeps Meets at h ⊢
  rw [reply_reword]
  cases hp : p T.input i with
  | ok | fault | exhausted => rwa [hp] at h
  | fail d j =>
    rw [hp] at h
    dsimp only
    by_cases hij : i = j
    · subst hij
      rw [if_pos rfl]
      exact meets_refuse hi details _
    · rw [if_neg hij]
      exact h

theorem Keeps.attempt {p : Reading α} (hi : i ≤ T.last) (h : T.Keeps p i) : T.Keeps p.attempt i := by
  unfold Keeps Meets at h ⊢
  rw [reply_attempt]
  cases hp : p T.input i with
  | ok | fault | exhausted => rwa [hp] at h
  | fail d j => exact ⟨hi, trivial⟩

theorem at_none (t : Token) (h : t ∈ (none : Option Token)) : T.input.At i t := by cases h

/-- Where the reading has passed no token, the index is the one where it began, and the token there is known. -/
theorem keeps_composed {S : Part → Prop} {cur : Option Token} {p : Recursion → Reading α} (hp : Composed S cur p)
    (hi : i ≤ T.last) (hcur : ∀ t ∈ cur, T.input.At i t) (here : ∀ part, S part → T.KeepsFrom (rec part) i)
    (further : ∀ part, T.KeepsFrom (rec part) (i + 1)) : T.Keeps (p rec) i := by
  induction hp generalizing i with
  | part h => exact here _ h i (Nat.le_refl i) hi
  | pure a => exact keeps_pure hi a
  | refuse details => exact meets_refuse hi details _
  | newlines => exact keeps_newlines hi
  | passing h => exact (meets_passing hi h).keeps
  | bind _ _ ih ihf =>
    refine (ih hi hcur here further).bind fun a j hij hj =>
      ihf a hj at_none (fun part h => (here part h).mono hij) fun part => ?_
    exact (further part).mono (by omega)
  | bound _ ih =>
    refine (keeps_bound hi).bind fun n j _ _ hji => ?_
    subst hji
    exact ih n hi hcur here further
  | start _ ih =>
    refine (meets_start hi).bind fun q j _ _ ⟨hji, _⟩ => ?_
    subst hji
    exact ih q hi hcur here further
  | stop _ ih =>
    refine (meets_stop hi).bind fun q j _ _ ⟨hji, _⟩ => ?_
    subst hji
    exact ih q hi hcur here further
  | token _ ih =>
    refine (meets_tokenFor hi _).bind fun t j _ _ ⟨hji, ht⟩ => ?_
    subst hji
    exact ih t hi (fun u hu => Option.some.inj hu ▸ ht) here further
  | advance hk _ ih =>
    refine (meets_advance (lt_of_kind hi (hcur _ rfl) hk)).bind fun _ j _ hj hlt => ?_
    exact ih hj at_none (fun part _ => (further part).mono hlt) fun part => (further part).mono (by omega)
  | pass h _ ih =>
    refine (meets_passing hi h).bind fun a j _ hj hlt => ?_
    exact ih a hj at_none (fun part _ => (further part).mono hlt) fun part => (further part).mono (by omega)
  | skip h _ _ ih ih' =>
    refine (meets_skipping hi h).bind fun b j _ hj hb => ?_
    cases b with
    | true =>
      exact ih hj at_none (fun part _ => (further part).mono hb) fun part =>
        (further part).mono (Nat.le_succ_of_le hb)
    | false =>
      obtain rfl : j = i := hb
      exact ih' hi hcur here further
  | operator _ _ ih ih' =>
    refine (meets_isWord hi _).bind fun b j _ hj ⟨hji, hb⟩ => .ite (fun h => ?_) fun _ => ?_
    · refine (meets_token hj).bind fun op k _ _ ⟨hkj, _⟩ => ?_
      subst hkj hji
      refine (meets_advance (hb h)).bind fun _ m _ hm hlt => ?_
      exact ih op hm at_none (fun part _ => (further part).mono hlt) fun part => (further part).mono (by omega)
    · subst hji
      exact ih' hj hcur here further
  | ite _ _ ih ih' => exact .ite (fun h => ih h hi hcur here further) fun h => ih' h hi hcur here further
  | reword details _ ih => exact (ih hi hcur here further).reword hi details
  | attempt _ ih => exact (ih hi hcur here further).attempt hi

theorem keeps_all {p : Recursion → Reading α} (hp : Composed AnyPart none p) (hi : i ≤ T.last)
    (h : ∀ part, T.KeepsFrom (rec part) i) : T.Keeps (p rec) i :=
  keeps_composed hp hi at_none (fun part _ => h part) fun part => (h part).mono (Nat.le_succ i)

/-- The induction is on the bound. At the token where a part begins it reads parts of lower rank only, and further on
there are fewer tokens left. -/
theorem read_keeps {part : Part} (hi : i ≤ T.last) (hn : 4 * (T.last - i) + part.rank < n ∨ T.shallow) :
    T.Keeps (read n part) i := by
  induction n generalizing part i with
  | zero =>
    rcases hn with hn | hn
    · omega
    · exact hn
  | succ n ih =>
    have here (other : Part) (hr : other.rank < part.rank) : T.KeepsFrom (read n other) i := fun j hij hj =>
      ih hj (hn.imp_left fun hn => by omega)
    have further (other : Part) : T.KeepsFrom (read n other) (i + 1) := fun j hij hj =>
      ih hj (hn.imp_left fun hn => by
        have : other.rank ≤ 3 := by cases other <;> decide
        omega)
    have keep {p : Recursion → Reading Node} (h : Composed (·.rank < part.rank) none p) : T.Keeps (p (read n)) i :=
      keeps_composed h hi at_none here further
    have counted {p : Recursion → Reading (Node × Nat)} (h : Composed (·.rank < part.rank) none p) :
        T.Keeps (return (← p (read n)).1) i :=
      (keeps_composed h hi at_none here further).bind fun r j _ hj => keeps_pure hj r.1
    cases part with
    | statements => exact counted (composed_statements (by decide))
    | statement => exact counted (composed_statement (by decide))
    | logic => exact keep (composed_logic (by decide))
    | factor => exact keep composed_factor

theorem keepsFrom_read (hn : 4 * (T.last - i) + 4 ≤ n ∨ T.shallow) (part : Part) : T.KeepsFrom (read n part) i :=
  fun j hij hj => read_keeps hj (hn.imp_left fun hn => by
    have : part.rank ≤ 3 := by cases part <;> decide
    omega)

/-- What a rule gives instead of a node is a diagnostic at the token where it ends. -/
def Told (T : Tape) (r : Except Diagnostic Found × Nat) (i : Nat) : Prop := ∀ d, r.1 = .error d → T.Marks d i

theorem meets_plainly {p : Reading Node} (h : T.Keeps p i) : T.Meets (plainly p) i T.Told :=
  h.bind fun _ _ _ hj => meets_pure hj fun _ hd => by cases hd

theorem meets_counted {p : Reading (Node × Nat)} (h : T.Keeps p i) : T.Meets (counted p) i T.Told :=
  h.bind fun _ _ _ hj => meets_pure hj fun _ hd => by cases hd

theorem meets_program (hi : i ≤ T.last) (h : ∀ part, T.KeepsFrom (rec part) i) :
    T.Meets (program rec) i fun r j => ∀ d, r.1 = .error d → T.Marks d j := by
  refine (keeps_all (composed_statements trivial) hi h).bind fun r j _ hj => ?_
  refine (meets_isKind hj .eof).bind fun b k _ hk _ => .ite (fun _ => meets_pure hk fun _ hd => by cases hd) fun _ => ?_
  refine (meets_start hk).bind fun p m _ hm ⟨hmk, hp⟩ => ?_
  subst hmk
  refine (meets_stop hm).bind fun q l _ hl ⟨hlm, hq⟩ => meets_pure hl fun d hd => ?_
  subst hlm
  cases hd
  exact marks_invalidSyntax hp hq _

theorem meets_reading (rule : Rule) (hi : i + rule.unseen ≤ T.last) (hn : 4 * (T.last - i) + 4 ≤ n ∨ T.shallow) :
    T.Meets (rule.reading (read n)) i T.Told := by
  have hi' : i ≤ T.last := by omega
  have here := keepsFrom_read hn
  have keep {p : Recursion → Reading Node} (h : Composed AnyPart none p) : T.Meets (plainly (p (read n))) i T.Told :=
    meets_plainly (keeps_all h hi' here)
  have seen {p : Reading Node} (hi : i < T.last) (h : ∀ t, t.kind ≠ .eof → Composed AnyPart (some t) fun _ => p) :
      T.Meets (plainly p) i T.Told := by
    obtain ⟨t, ht, heof⟩ := T.ends i hi'
    have hp := h t fun hk => absurd (heof.1 hk) (Nat.ne_of_lt hi)
    refine meets_plainly (keeps_composed hp hi' (fun u hu => Option.some.inj hu ▸ ht) (fun part _ => here part)
      fun part => ?_)
    exact (here part).mono (Nat.le_succ i)
  cases rule with
  | program =>
    refine (meets_program hi' here).bind fun r j _ hj hr => meets_pure hj fun d hd => ?_
    obtain ⟨r | n, reversed⟩ := r
    · cases hd
      exact hr _ rfl
    · cases hd
  | statements => exact meets_counted (keeps_all (composed_statements trivial) hi' here)
  | statement => exact meets_counted (keeps_all (composed_statement trivial) hi' here)
  | expression => exact keep (composed_expression trivial)
  | logic => exact keep (composed_logic trivial)
  | comparison => exact keep (composed_comparison trivial)
  | setOperation => exact keep (composed_setOperation trivial)
  | arithmetic => exact keep (composed_arithmetic trivial)
  | term => exact keep (composed_term trivial)
  | factor => exact keep composed_factor
  | call => exact keep composed_call
  | atom => exact keep composed_atom
  | list => exact keep composed_list
  | tuple | set => exact keep (composed_collection (by decide) (by decide))
  | dict => exact keep composed_dict
  | conditional => exact keep composed_conditional
  | cycle => exact keep composed_cycle
  | whileLoop => exact keep composed_whileLoop
  | repeatLoop => exact keep composed_repeatLoop
  | functionDefinition => exact keep composed_functionDefinition
  | lambda => exact keep composed_lambda
  | attemptHandle => exact keep composed_attemptHandle
  | switch => exact keep composed_switch
  | bring => exact seen hi fun _ => composed_bring
  | modulePath =>
    exact (keeps_all composed_modulePath hi' here).bind fun t j _ hj => meets_pure hj fun _ hd => by cases hd
  | share => exact seen hi fun _ => composed_share

end Tape

theorem Input.at_ofList {i : Nat} {t : Token} (hi : i < ts.length) :
    (Input.ofList (ts.map .token)).At i t ↔ ts[i]? = some t := by
  simp [Input.At, Input.ofList, hi]

def Tape.ofTokens (init : List Token) (last : Token) (hlast : last.kind = .eof) (hinit : ∀ t ∈ init, t.kind ≠ .eof)
    (shallow : Prop) : Tape where
  input := .ofList ((init ++ [last]).map .token)
  last := init.length
  shallow := shallow
  ends i hi := by
    have hlt : i < (init ++ [last]).length := by rw [length_append, length_singleton]; omega
    refine ⟨(init ++ [last])[i], (Input.at_ofList hlt).2 (getElem?_eq_getElem hlt), ?_⟩
    rcases Nat.lt_or_eq_of_le hi with h | rfl
    · rw [getElem_append_left h]
      exact iff_of_false (hinit _ (getElem_mem h)) (by omega)
    · rw [getElem_append_right (Nat.le_refl _)]
      simpa using hlast

theorem attempt_restores {α : Type} {p : Reading α} {input : Input} {i j : Nat} {d : Diagnostic}
    (h : p.run input i = (.fail d j, n)) : p.attempt.run input i = (.ok (.error n) i, 0) := by
  have hp := p.agrees input i
  rw [h] at hp
  obtain rfl : j = i + n := hp
  unfold attempt
  dsimp only
  rw [h]
  dsimp only
  rw [Nat.add_sub_cancel]

/-- Every rule of the grammar, at every depth and from every token on: the index where it ends is the one that its
count of passed tokens tells and is not past the end of the text, and a diagnostic has the place of the token there.
So what is taken back after an attempt of a statement or of a value to be given back is what the attempt has
passed. -/
theorem reading_exact {init : List Token} {last : Token} (hlast : last.kind = .eof) (hinit : ∀ t ∈ init, t.kind ≠ .eof)
    (n i : Nat) :
    (∀ rule : Rule, i + rule.unseen ≤ init.length →
      match Outcome.ofReply ((rule.reading (read n)).run (.ofList ((init ++ [last]).map .token)) i) with
      | .ok (some o) => o.idx = i + o.passed ∧ o.idx ≤ init.length ∧ ∀ d, o.result = .error d →
          ∃ t, (init ++ [last])[o.idx]? = some t ∧ d.start = some t.start ∧ d.stop = some t.stop
      | .ok none => n < 4 * (init.length - i) + 4
      | .error _ => False) ∧
    ∀ p ∈ [read n .statement, expression (read n)], ∀ d j passed,
      p.run (.ofList ((init ++ [last]).map .token)) i = (.fail d j, passed) →
        p.attempt.run (.ofList ((init ++ [last]).map .token)) i = (.ok (.error passed) i, 0) := by
  refine ⟨fun rule hrule => ?_, fun p _ d j passed h => attempt_restores h⟩
  let T := Tape.ofTokens init last hlast hinit (n < 4 * (init.length - i) + 4)
  have hmeets : T.Meets (rule.reading (read n)) i T.Told := Tape.meets_reading rule hrule (Nat.lt_or_ge _ _).symm
  have hagrees := (rule.reading (read n)).agrees T.input i
  have marked {d : Diagnostic} {j : Nat} (hj : j ≤ init.length) (h : T.Marks d j) :
      ∃ t, (init ++ [last])[j]? = some t ∧ d.start = some t.start ∧ d.stop = some t.stop := by
    obtain ⟨t, ht, hd⟩ := h
    exact ⟨t, (Input.at_ofList (by rw [length_append, length_singleton]; omega)).1 ht, hd⟩
  change match Outcome.ofReply ((rule.reading (read n)).run T.input i) with
    | .ok (some o) => _
    | .ok none => _
    | .error _ => _
  unfold Tape.Meets reply at hmeets
  generalize (rule.reading (read n)).run T.input i = r at hmeets hagrees
  obtain ⟨⟨⟨result, reversed⟩, j⟩ | ⟨d, j⟩ | f | _, passed⟩ := r
  · exact ⟨hagrees, hmeets.1, fun d hd => marked hmeets.1 (hmeets.2 d hd)⟩
  · refine ⟨hagrees, hmeets.1, fun e he => ?_⟩
    cases he
    exact marked hmeets.1 hmeets.2
  · exact hmeets
  · exact hmeets

namespace Sample

def here : Position := .start ⟨"w", ""⟩

def openGive : List Token :=
  [⟨.keyword, .text "give", here, here⟩, ⟨.lparen, .absent, here, here⟩, ⟨.int, .int 1, here, here⟩]

def finish : Token := ⟨.eof, .absent, here, here⟩

/-- The two tokens after the first word are passed, counted and given back. -/
theorem reading_exact_give :
    ∃ o, Outcome.ofReply ((Rule.statement.reading (read 20)).run (.ofList ((openGive ++ [finish]).map .token)) 0) =
      .ok (some o) ∧ o.idx = 0 + o.passed ∧ o.passed = 1 ∧ o.reversed = 2 := by
  have h := (@reading_exact openGive finish rfl (by decide) 20 0).1 .statement (by decide)
  exact ⟨_, rfl, h.1, rfl, rfl⟩

end Sample

/-- The tokens up to the first end of the text, as a tape whose readings never reach their bound. -/
def Tape.untilEnd (ts : List Token) (h : ∃ t ∈ ts, t.kind = .eof) : Tape where
  input := .ofList (ts.map .token)
  last := ts.findIdx (·.kind == .eof)
  shallow := False
  ends i hi := by
    have hlt : ts.findIdx (·.kind == .eof) < ts.length :=
      findIdx_lt_length_of_exists (by simpa using h)
    have hi' : i < ts.length := Nat.lt_of_le_of_lt hi hlt
    refine ⟨ts[i], (Input.at_ofList hi').2 (getElem?_eq_getElem hi'), ?_⟩
    rcases Nat.lt_or_eq_of_le hi with h | rfl
    · have hne : (ts[i].kind == .eof) = false := not_of_lt_findIdx h
      exact iff_of_false (ne_of_beq_false hne) (Nat.ne_of_lt h)
    · have hend := @findIdx_getElem _ (·.kind == Kind.eof) ts hi'
      exact iff_of_true (eq_of_beq hend) rfl

theorem program_ends (h : ∃ t ∈ ts, t.kind = .eof) :
    (∃ r j, program (read (depthFor (ts.map Lexeme.token).length)) (.ofList (ts.map .token)) 0 = .ok r j) ∨
      ∃ d j, program (read (depthFor (ts.map Lexeme.token).length)) (.ofList (ts.map .token)) 0 = .fail d j := by
  let T := Tape.untilEnd ts h
  let depth := depthFor (ts.map Lexeme.token).length
  have hlast : T.last ≤ ts.length := findIdx_le_length
  have hdepth : 4 * T.last + 4 ≤ depth := by
    simp only [depth, depthFor, length_map]
    omega
  have hprogram := Tape.meets_program (Nat.zero_le _) (Tape.keepsFrom_read
    (.inl (show 4 * (T.last - 0) + 4 ≤ depth from hdepth)))
  unfold Tape.Meets at hprogram
  change (∃ r j, program (read depth) T.input 0 = .ok r j) ∨ ∃ d j, program (read depth) T.input 0 = .fail d j
  generalize program (read depth) T.input 0 = r at hprogram
  match r, hprogram with
  | .ok r j, _ => exact .inl ⟨r, j, rfl⟩
  | .fail d j, _ => exact .inr ⟨d, j, rfl⟩

/-- Every list of tokens with an end of the text in it is a program or has a diagnostic. -/
theorem parse_ends (h : ∃ t ∈ ts, t.kind = .eof) :
    (∃ n, parse (ts.map .token) = .ok n) ∨ ∃ d, parse (ts.map .token) = .error (.diagnostic d) := by
  unfold parse
  rcases program_ends h with ⟨⟨d | n, reversed⟩, j, hr⟩ | ⟨d, j, hr⟩
  · exact .inr ⟨d, by rw [hr]⟩
  · exact .inl ⟨n, by rw [hr]⟩
  · exact .inr ⟨d, by rw [hr]⟩

end Utterance.Grammar

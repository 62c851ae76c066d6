import Utterance.Proofs.Readings
import Utterance.Proofs.ScanSeam

/-!
# Reading the same tokens at two places

A window shows the lexemes of one input, up to its end, inside another one: some way on, and followed there by a line
end or by the end. What is read in the first input is copied to the second one (`Window.Copies`): there the same is
read between the same places of the window. Whether that holds may depend on where a reading ends, since what follows
there is all that the two inputs need to have in common.

The rules are copied as soon as the parts below them are (`Copying`). Two things are left open here: where expressions
may end (`A`), and where operands may end (`T`).
-/

namespace Utterance.Grammar

open Reading

open Token (Kind)

variable {c : Prop} {input : Input} {n : Nat}

/-- Lexemes of `left` that stand in `right`, too. -/
structure Window where
  left : Input
  right : Input
  len : Nat
  shift : Nat
  within : ∀ i < len, (left.lexemes[i]?.getD left.last).Alike (right.lexemes[i + shift]?.getD right.last)
  inner : ∀ i < len, ∀ t, left.At i t → t.kind ≠ .eof
  beyond : ∀ i ≥ len, ∃ t, left.At i t ∧ t.kind = .eof
  next : ∃ t, right.At (len + shift) t ∧ (t.kind = .newline ∨ t.kind = .eof)
  size : len < left.lexemes.size
  size' : len + shift < right.lexemes.size

def Near (t t' : Token) : Prop :=
  t.Alike AnyPlace t' ∨ t.kind = .eof ∧ (t'.kind = .newline ∨ t'.kind = .eof)

variable {t : Token}

theorem Near.kind_eq {t' : Token} (h : Near t t') {k : Kind} (hk : k ≠ .newline ∧ k ≠ .eof) : (t'.kind == k)
    = (t.kind == k) := by
  rcases h with h | ⟨h, h' | h'⟩
  · rw [h.kind]
  · rw [h, h', beq_false_of_ne hk.1.symm, beq_false_of_ne hk.2.symm]
  · rw [h, h', beq_false_of_ne hk.2.symm]

theorem Near.isKeyword {t' : Token} (h : Near t t') (word : String) : t'.isKeyword word = t.isKeyword word := by
  rcases h with h | ⟨h, h' | h'⟩
  · simp only [Token.isKeyword, h.kind, h.value]
  · rw [Token.isKeyword, Token.isKeyword, h, h']; rfl
  · rw [Token.isKeyword, Token.isKeyword, h, h']; rfl

def operatorKinds : List Kind := [.mul, .div, .mod, .plus, .minus, .ampersand, .caret, .ee, .ne, .lt, .gt, .lte, .gte]

def isOperator (t : Token) : Bool := operatorKinds.contains t.kind || t.isKeyword "and" || t.isKeyword "or"

/-- A token begins no statement, and nothing before it goes on with it. -/
def halts (t : Token) : Bool := !starts t && !isOperator t && t.kind != .atSign

def haltKind (k : Kind) : Bool :=
  !startKinds.contains k && !operatorKinds.contains k && k != .atSign && k != .keyword

def haltWord (word : String) : Bool := !startWords.contains word && word != "and" && word != "or"

theorem starts_of_halts (h : halts t = true) : starts t = false := by
  simp only [halts, Bool.and_eq_true, Bool.not_eq_true'] at h
  exact h.1.1

theorem halts_of_kind (h : haltKind t.kind = true) : halts t = true := by
  simp only [haltKind, Bool.and_eq_true, Bool.not_eq_true', bne_iff_ne, ne_eq] at h
  obtain ⟨⟨⟨hs, ho⟩, ha⟩, hk⟩ := h
  have hw : startWords.any t.isKeyword = false := List.any_eq_false.2 fun word _ => by simp [isKeyword_of_kind hk]
  simp only [halts, starts, isOperator, isKeyword_of_kind hk, hs, ho, hw]
  simp [ha]

theorem halts_of_word {word : String} (h : t.isKeyword word = true) (hw : haltWord word = true) : halts t = true := by
  simp only [haltWord, Bool.and_eq_true, Bool.not_eq_true', bne_iff_ne, ne_eq] at hw
  have hk := kind_of_isKeyword h
  have hstart : starts t = false := by
    rw [starts, hk, Bool.or_eq_false_iff]
    refine ⟨by decide, List.any_eq_false.2 fun other hother => ?_⟩
    rw [isKeyword_of_isKeyword h, beq_iff_eq]
    rintro rfl
    simp [hother] at hw
  have hop : isOperator t = false := by
    rw [isOperator, hk, isKeyword_of_isKeyword h, isKeyword_of_isKeyword h, beq_false_of_ne hw.1.2,
      beq_false_of_ne hw.2]
    decide
  rw [halts, hstart, hop, hk]
  rfl

namespace Window

variable (W : Window) {α β γ δ : Type} {i j : Nat}

theorem lt (h : W.left.At i t) (hk : t.kind ≠ .eof) : i < W.len := by
  rcases Nat.lt_or_ge i W.len with hi | hi
  · exact hi
  · obtain ⟨u, hu, he⟩ := W.beyond i hi
    rw [h.unique hu] at hk
    exact absurd he hk

variable {sep : Token → Bool} {more : Reading Bool} {k : Kind}

theorem lt_of_kind (h : W.left.At i t) (hk : t.kind = k) (he : k ≠ .eof) : i < W.len :=
  W.lt h (hk ▸ he)

theorem lt_of_word (h : W.left.At i t) {word : String} (hw : t.isKeyword word = true) : i < W.len :=
  W.lt h (by rw [kind_of_isKeyword hw]; decide)

theorem alike (h : W.left.At i t) (hi : i < W.len) : ∃ t', W.right.At (i + W.shift) t' ∧ t.Alike AnyPlace t' := by
  have hx := W.within i hi
  rw [h] at hx
  cases hy : W.right.lexemes[i + W.shift]?.getD W.right.last with
  | refused d => rw [hy] at hx; cases hx
  | token t' =>
    rw [hy] at hx
    cases hx with
    | token h => exact ⟨t', hy, h⟩

theorem near (h : W.left.At i t) (hi : i ≤ W.len) : ∃ t', W.right.At (i + W.shift) t' ∧ Near t t' := by
  rcases Nat.lt_or_eq_of_le hi with hi | rfl
  · obtain ⟨t', ht', ha⟩ := W.alike h hi
    exact ⟨t', ht', .inl ha⟩
  · obtain ⟨u, hu, he⟩ := W.beyond W.len (Nat.le_refl _)
    obtain ⟨t', ht', hk⟩ := W.next
    rw [h.unique hu]
    exact ⟨t', ht', .inr ⟨he, hk⟩⟩

/-- What the first reading reads from an index on, up to where `K` holds, the second one reads in the other input. -/
def CopiesAt (R : α → β → Prop) (K : Nat → Prop) (p : Reading α) (q : Reading β) (i : Nat) : Prop :=
  i ≤ W.len → ∀ v j, p W.left i = .ok v j → K j →
    i ≤ j ∧ j ≤ W.len ∧ ∃ v', q W.right (i + W.shift) = .ok v' (j + W.shift) ∧ R v v'

theorem CopiesAt.ite {W : Window} {R : α → β → Prop} {K : Nat → Prop} {p p' : Reading α} {q q' : Reading β}
    {_ : Decidable c} (h : W.CopiesAt R K p q i) (h' : W.CopiesAt R K p' q' i) :
    W.CopiesAt R K (if c then p else p') (if c then q else q') i := by
  split
  · exact h
  · exact h'

/-- From some place on, everything that is read is copied. -/
def CopiesFrom (l : Nat) (R : α → β → Prop) (K : Nat → Prop) (p : Reading α) (q : Reading β) : Prop :=
  ∀ i, l ≤ i → W.CopiesAt R K p q i

abbrev Copies (R : α → β → Prop) (K : Nat → Prop) (p : Reading α) (q : Reading β) : Prop := W.CopiesFrom 0 R K p q

abbrev Free (_ : Nat) : Prop := True

abbrev Any (_ : α) (_ : β) : Prop := True

abbrev Same : Node → Node → Prop := Node.Alike AnyPlace

variable {W} {R : α → β → Prop} {R' : γ → δ → Prop} {K K' : Nat → Prop} {p : Reading α} {q : Reading β}
  {f : α → Reading γ} {g : β → Reading δ}

theorem CopiesAt.bind (h : W.CopiesAt R K p q i)
    (hK : ∀ a m v j, p W.left i = .ok a m → f a W.left m = .ok v j → K' j → K m)
    (hf : ∀ a b m, p W.left i = .ok a m → i ≤ m → R a b → W.CopiesAt R' K' (f a) (g b) m) :
    W.CopiesAt R' K' (p >>= f) (q >>= g) i := by
  intro hi v j hv hj
  obtain ⟨a, m, ha, hv⟩ := bind_elim hv
  obtain ⟨him, hm, b, hb, hab⟩ := h hi a m ha (hK a m v j ha hv hj)
  obtain ⟨hmj, hj, v', hv', hvv⟩ := hf a b m ha him hab hm v j hv hj
  exact ⟨Nat.le_trans him hmj, hj, v', (bind_ok hb).trans hv', hvv⟩

section

variable {l : Nat}

theorem CopiesFrom.bind (h : W.CopiesFrom l R K p q) (hK : ∀ a m v j, f a W.left m = .ok v j → K' j → K m)
    (hf : ∀ a b, R a b → W.CopiesFrom l R' K' (f a) (g b)) : W.CopiesFrom l R' K' (p >>= f) (q >>= g) :=
  fun i hl => (h i hl).bind (fun a m v j _ => hK a m v j) fun a b m _ him hab =>
    hf a b hab m (Nat.le_trans hl him)

theorem CopiesFrom.then (h : W.CopiesFrom l R Free p q) (hf : ∀ a b, R a b → W.CopiesFrom l R' K' (f a) (g b)) :
    W.CopiesFrom l R' K' (p >>= f) (q >>= g) :=
  .bind h (fun _ _ _ _ _ _ => trivial) hf

theorem CopiesFrom.pure {a : α} {b : β} (h : R a b) : W.CopiesFrom l R K (pure a) (pure b) := by
  intro i _ hi v j hv _
  cases hv
  exact ⟨Nat.le_refl _, hi, b, rfl, h⟩

theorem CopiesFrom.ite {_ : Decidable c} {p' : Reading α} {q' : Reading β} (h : W.CopiesFrom l R K p q)
    (h' : W.CopiesFrom l R K p' q') : W.CopiesFrom l R K (if c then p else p') (if c then q else q') := by
  split
  · exact h
  · exact h'

theorem CopiesFrom.mono (h : W.CopiesFrom l R K p q) (hK : ∀ j, K' j → K j) : W.CopiesFrom l R K' p q :=
  fun i hl hi v j hv hj => h i hl hi v j hv (hK j hj)

theorem CopiesFrom.later (h : W.Copies R K p q) : W.CopiesFrom l R K p q := fun i _ => h i (Nat.zero_le i)

theorem CopiesFrom.reword (h : W.CopiesFrom l R K p q) (details : String) :
    W.CopiesFrom l R K (p.reword details) (q.reword details) := by
  intro i hl hi v j hv hj
  have hp : p W.left i = .ok v j := by
    rw [reply_reword] at hv
    split at hv
    · next d k _ =>
      split at hv
      · obtain ⟨a, m, -, hv⟩ := bind_elim hv
        obtain ⟨b, m, -, hv⟩ := bind_elim hv
        cases hv
      · cases hv
    · exact hv
  obtain ⟨hij, hjl, v', hv', hvv⟩ := h i hl hi v j hp hj
  exact ⟨hij, hjl, v', reword_ok hv' _, hvv⟩

end

theorem copies_place {r : Input → Nat → Position} {place : Reading Position}
    (h : ∀ input i, place input i = .ok (r input i) i) : W.Copies Any K place place := by
  intro i _ hi v j hv _
  rw [h] at hv
  cases hv
  exact ⟨Nat.le_refl _, hi, _, h _ _, trivial⟩

theorem copies_start : W.Copies Any K start start :=
  copies_place fun input i => (start_eq input i).choose_spec

theorem copies_stop : W.Copies Any K stop stop :=
  copies_place fun input i => (stop_eq input i).choose_spec

theorem copies_tokenFor (property : String) : W.Copies Near K (tokenFor property) (tokenFor property) := by
  intro i _ hi t j ht _
  obtain ⟨rfl, ht⟩ := tokenFor_elim ht
  obtain ⟨t', ht', hn⟩ := W.near ht hi
  exact ⟨Nat.le_refl _, hi, t', tokenFor_at ht' _, hn⟩

theorem CopiesAt.token {property : String} {f : Token → Reading α} {g : Token → Reading β}
    (h : ∀ t t', W.left.At i t → Near t t' → W.CopiesAt R K (f t) (g t') i) :
    W.CopiesAt R K (tokenFor property >>= f) (tokenFor property >>= g) i := by
  refine (copies_tokenFor _ i (Nat.zero_le i)).bind (K := Free) (fun _ _ _ _ _ _ _ => trivial) fun t t' m ht _ hn => ?_
  obtain ⟨rfl, ht⟩ := tokenFor_elim ht
  exact h t t' ht hn

theorem copies_isKind (hk : k ≠ .newline ∧ k ≠ .eof) : W.Copies Eq K (isKind k) (isKind k) :=
  (copies_tokenFor _).then fun _ _ h => .pure (h.kind_eq hk).symm

theorem copies_isWord (word : String) : W.Copies Eq K (isWord word) (isWord word) :=
  (copies_tokenFor _).then fun _ _ h => .pure (h.isKeyword word).symm

theorem copies_advance (ht : W.left.At i t) (hk : t.kind ≠ .eof) (h : W.Copies R K p q) :
    W.CopiesAt R K (advance >>= fun _ => p) (advance >>= fun _ => q) i := by
  intro hi v j hv hj
  obtain ⟨hle, hjl, v', hv', hR⟩ := h (i + 1) (Nat.zero_le _) (W.lt ht hk) v j hv hj
  rw [Nat.add_right_comm] at hv'
  exact ⟨by omega, hjl, v', hv', hR⟩

/-- A reading that passes the tokens that satisfy `sep`. -/
structure Skips (more : Reading Bool) (sep : Token → Bool) : Prop where
  pass : ∀ {input i t}, input.At i t → more input i = .ok (sep t) (if sep t then i + 1 else i)
  elim : ∀ {input i b j}, more input i = .ok b j → ∃ t, input.At i t ∧ b = sep t ∧ j = if b then i + 1 else i
  near : ∀ {t t'}, Near t t' → sep t' = sep t
  eof : ∀ {t}, sep t = true → t.kind ≠ .eof

theorem skips_kind (hk : k ≠ .newline ∧ k ≠ .eof) : Skips (skipKind k) (·.kind == k) where
  pass h := skipKind_at h k
  elim h := skipKind_elim h
  near h := h.kind_eq hk
  eof h := by rw [eq_of_beq h]; exact hk.2

theorem skips_word (word : String) : Skips (skipWord word) (·.isKeyword word) where
  pass h := skipWord_at h word
  elim h := skipWord_elim h
  near h := h.isKeyword word
  eof h := by rw [kind_of_isKeyword h]; decide

theorem copies_skips (hs : Skips more sep) : W.Copies Eq K more more := by
  intro i _ hi b j hb _
  obtain ⟨t, ht, rfl, rfl⟩ := hs.elim hb
  obtain ⟨t', ht', hn⟩ := W.near ht hi
  refine ⟨by split <;> omega, ?_, _, (hs.pass ht').trans ?_, rfl⟩
  · split
    · next h => exact W.lt ht (hs.eof h)
    · exact hi
  · rw [hs.near hn]
    split <;> simp only [Nat.add_right_comm]

theorem copies_skipKind (hk : k ≠ .newline ∧ k ≠ .eof) : W.Copies Eq K (skipKind k) (skipKind k) :=
  copies_skips (skips_kind hk)

theorem copies_skipWord (word : String) : W.Copies Eq K (skipWord word) (skipWord word) :=
  copies_skips (skips_word word)

theorem copies_expectKind (hk : k ≠ .eof) (details : String) :
    W.Copies Any K (expectKind k details) (expectKind k details) := by
  intro i _ hi v j hv _
  obtain ⟨rfl, t, ht, rfl⟩ := expectKind_elim hv
  have hlt := W.lt ht hk
  obtain ⟨t', ht', ha⟩ := W.alike ht hlt
  refine ⟨Nat.le_succ i, hlt, (), ?_, trivial⟩
  rw [ha.kind, expectKind_at ht', Nat.add_right_comm]

theorem copies_expectWord (word details : String) :
    W.Copies Any K (expectWord word details) (expectWord word details) := by
  intro i _ hi v j hv _
  obtain ⟨rfl, t, ht, hw⟩ := expectWord_elim hv
  obtain ⟨t', ht', hn⟩ := W.near ht hi
  refine ⟨Nat.le_succ i, W.lt_of_word ht hw, (), ?_, trivial⟩
  refine (bind_ok (isWord_at ht' word)).trans ?_
  rw [hn.isKeyword, hw, Nat.add_right_comm]
  rfl

theorem copies_identifier (details : String) :
    W.Copies (Token.Alike AnyPlace) K (identifier details) (identifier details) := by
  intro i _ hi v j hv _
  obtain ⟨rfl, ht, hk⟩ := identifier_elim hv
  have hlt := W.lt_of_kind ht hk (by decide)
  obtain ⟨t', ht', ha⟩ := W.alike ht hlt
  refine ⟨Nat.le_succ i, hlt, t', ?_, ha⟩
  refine (bind_ok (isKind_at ht' .identifier)).trans ?_
  rw [← ha.kind, hk]
  refine (bind_ok (token_at ht')).trans ?_
  rw [Nat.add_right_comm]
  rfl

namespace CopiesFrom

variable {l : Nat} {details : String} {p' : Reading α} {q' : Reading β}

theorem start {f : Position → Reading α} {g : Position → Reading β} (h : ∀ a b, W.CopiesFrom l R K (f a) (g b)) :
    W.CopiesFrom l R K (start >>= f) (start >>= g) :=
  copies_start.later.then fun a b _ => h a b

theorem stop {f : Position → Reading α} {g : Position → Reading β} (h : ∀ a b, W.CopiesFrom l R K (f a) (g b)) :
    W.CopiesFrom l R K (stop >>= f) (stop >>= g) :=
  copies_stop.later.then fun a b _ => h a b

theorem kind (hk : (k == .eof) = false) (h : W.CopiesFrom l R K p q) :
    W.CopiesFrom l R K (expectKind k details >>= fun _ => p) (expectKind k details >>= fun _ => q) :=
  (copies_expectKind (ne_of_beq_false hk) _).later.then fun _ _ _ => h

theorem word {word : String} (h : W.CopiesFrom l R K p q) :
    W.CopiesFrom l R K (expectWord word details >>= fun _ => p) (expectWord word details >>= fun _ => q) :=
  (copies_expectWord _ _).later.then fun _ _ _ => h

theorem name {f : Token → Reading α} {g : Token → Reading β}
    (h : ∀ t t', t.Alike AnyPlace t' → W.CopiesFrom l R K (f t) (g t')) :
    W.CopiesFrom l R K (identifier details >>= f) (identifier details >>= g) :=
  (copies_identifier _).later.then h

theorem choose {c : Reading Bool} (hc : W.Copies Eq Free c c) (h : W.CopiesFrom l R K p q)
    (h' : W.CopiesFrom l R K p' q') :
    W.CopiesFrom l R K (c >>= fun b => if b then p else p') (c >>= fun b => if b then q else q') := by
  refine hc.later.then ?_
  rintro b _ rfl
  exact .ite h h'

theorem map {f : α → γ} {g : β → δ} (h : W.CopiesFrom l R K p q) (hf : ∀ a b, R a b → R' (f a) (g b)) :
    W.CopiesFrom l R' K (p >>= fun a => Pure.pure (f a)) (q >>= fun b => Pure.pure (g b)) :=
  h.bind (fun _ _ _ _ h hj => by cases h; exact hj) fun a b hab => .pure (hf a b hab)

end CopiesFrom

theorem CopiesFrom.ofBound {f : Nat → Reading α} {g : Nat → Reading β}
    (h : ∀ n n', W.len < n → W.len < n' → W.Copies R K (f n) (g n')) : W.Copies R K (bound >>= f) (bound >>= g) :=
  h _ _ (Nat.lt_succ_of_lt W.size) (by have := W.size'; omega)

theorem copies_skipAll {n' : Nat} (hn : W.len < i + n) (hn' : W.len < i + n') :
    W.CopiesAt Eq (· < W.len) (skipAll .newline n) (skipAll .newline n') i := by
  induction n generalizing n' i with
  | zero => exact fun hi => absurd hi (by omega)
  | succ n ih =>
    intro hi c j hc hj
    obtain ⟨n', rfl⟩ : ∃ m, n' = m + 1 := ⟨n' - 1, by omega⟩
    obtain ⟨b, m, hb, hc⟩ := bind_elim hc
    obtain ⟨t, ht, rfl, rfl⟩ := skipKind_elim hb
    split at hc
    · next hk =>
      have hlt := W.lt_of_kind ht (eq_of_beq hk) (by decide)
      obtain ⟨t', ht', ha⟩ := W.alike ht hlt
      have hskip : skipKind .newline W.right (i + W.shift) = .ok true (i + 1 + W.shift) := by
        rw [skipKind_at ht', ← ha.kind, hk, if_pos rfl, Nat.add_right_comm]
      obtain ⟨c', k, hc', hc⟩ := bind_elim hc
      cases hc
      obtain ⟨hle, hlen, c'', hc'', rfl⟩ := @ih (i + 1) n' (by omega) (by omega) hlt c' j hc' hj
      exact ⟨by omega, hlen, c' + 1, (bind_ok hskip).trans (bind_ok hc''), rfl⟩
    · next hk =>
      cases hc
      obtain ⟨t', ht', ha⟩ := W.alike ht hj
      refine ⟨Nat.le_refl _, hi, 0, (bind_ok (skipKind_at ht' _)).trans ?_, rfl⟩
      rw [← ha.kind, if_neg hk]
      simp only [hk]
      rfl

theorem copies_newlines : W.Copies Eq (· < W.len) newlines newlines :=
  .ofBound fun _ _ hn hn' _ _ => copies_skipAll (Nat.lt_add_left _ hn) (Nat.lt_add_left _ hn')

theorem copies_isNewline : W.Copies Eq (· < W.len) (isKind .newline) (isKind .newline) := by
  intro i _ hi b j hb hj
  obtain ⟨rfl, t, ht, rfl⟩ := isKind_elim hb
  obtain ⟨t', ht', ha⟩ := W.alike ht hj
  exact ⟨Nat.le_refl _, hi, _, isKind_at ht' _, by rw [ha.kind]⟩

/-- What is read after a line end or without one; without one it is not at the end that it can be read. -/
theorem CopiesFrom.ofNewline {l : Nat} {f g : Bool → Reading γ} {R : γ → γ → Prop}
    (hf : ∀ b, W.CopiesFrom l R K (f b) (g b))
    (hend : ∀ v j, f false W.left W.len = .ok v j → ¬K j) :
    W.CopiesFrom l R K (skipKind .newline >>= f) (skipKind .newline >>= g) := by
  intro i hl hi v j hv hj
  obtain ⟨b, m, hb, hv⟩ := bind_elim hv
  obtain ⟨t, ht, rfl, rfl⟩ := skipKind_elim hb
  have hlt : i < W.len := by
    rcases Nat.lt_or_eq_of_le hi with hlt | rfl
    · exact hlt
    · obtain ⟨u, hu, he⟩ := W.beyond W.len (Nat.le_refl _)
      rw [ht.unique hu, he] at hv
      exact absurd hj (hend v j hv)
  obtain ⟨t', ht', ha⟩ := W.alike ht hlt
  obtain ⟨hle, hlen, v', hv', hR⟩ := hf _ _ (by split <;> omega) (by split <;> omega) v j hv hj
  refine ⟨?_, hlen, v', (bind_ok (skipKind_at ht' _)).trans ?_, hR⟩
  · split at hle <;> omega
  · rw [← ha.kind, ← hv']
    congr 1
    split <;> simp only [Nat.add_right_comm]

theorem manyAfter_elim (hs : Skips more sep) {item : Reading α} {xs : List α}
    (h : manyAfter more item n input i = .ok xs j) :
    j = i ∨ ∃ t x k, input.At i t ∧ sep t = true ∧ item input (i + 1) = .ok x k := by
  cases n with
  | zero =>
    cases h
    exact .inl rfl
  | succ n =>
    obtain ⟨b, m, hb, h⟩ := bind_elim h
    obtain ⟨t, ht, rfl, rfl⟩ := hs.elim hb
    split at h
    · next hsep =>
      obtain ⟨x, k, hx, -⟩ := bind_elim h
      exact .inr ⟨t, x, k, ht, hsep, hx⟩
    · cases h
      exact .inl rfl

theorem many_elim (hs : Skips more sep) {item : Reading α} {xs : List α} (h : many more item input i = .ok xs j) :
    j = i ∨ ∃ t x k, input.At i t ∧ sep t = true ∧ item input (i + 1) = .ok x k := by
  obtain ⟨n, k, hn, h⟩ := bind_elim h
  cases hn
  exact manyAfter_elim hs h

theorem copies_manyAfter (hs : Skips more sep) (hp : W.Copies R K p q)
    (hK : ∀ i t v j, W.left.At i t → sep t = true → p W.left (i + 1) = .ok v j → K i)
    {n' : Nat} (hn : W.len < i + n) (hn' : W.len < i + n') :
    W.CopiesAt (List.Forall₂ R) K (manyAfter more p n) (manyAfter more q n') i := by
  induction n generalizing n' i with
  | zero => exact fun hi => absurd hi (by omega)
  | succ n ih =>
    intro hi xs j hxs hj
    obtain ⟨n', rfl⟩ : ∃ m, n' = m + 1 := ⟨n' - 1, by omega⟩
    obtain ⟨b, m, hb, hxs⟩ := bind_elim hxs
    obtain ⟨t, ht, rfl, rfl⟩ := hs.elim hb
    obtain ⟨t', ht', hnear⟩ := W.near ht hi
    split at hxs
    · next hsep =>
      have hlt := W.lt ht (hs.eof hsep)
      have hskip : more W.right (i + W.shift) = .ok true (i + 1 + W.shift) := by
        rw [hs.pass ht', hs.near hnear, hsep, if_pos rfl, Nat.add_right_comm]
      obtain ⟨x, m, hx, hxs⟩ := bind_elim hxs
      obtain ⟨ys, k, hys, hxs⟩ := bind_elim hxs
      cases hxs
      -- the item ends where another one follows, or at the end of all
      have hm : K m := by
        rcases manyAfter_elim hs hys with rfl | ⟨u, y, k, hu, hsu, hy⟩
        · exact hj
        · exact hK m u y k hu hsu hy
      obtain ⟨him, hml, x', hx', hR⟩ := hp (i + 1) (Nat.zero_le _) hlt x m hx hm
      obtain ⟨hmj, hjl, ys', hys', hRs⟩ := @ih m n' (by omega) (by omega) hml ys j hys hj
      exact ⟨by omega, hjl, x' :: ys', (bind_ok hskip).trans ((bind_ok hx').trans (bind_ok hys')), .cons hR hRs⟩
    · next hsep =>
      cases hxs
      refine ⟨Nat.le_refl _, hi, [], (bind_ok (hs.pass ht')).trans ?_, .nil⟩
      rw [hs.near hnear, if_neg hsep]
      simp only [hsep]
      rfl

theorem CopiesFrom.many (hp : W.Copies R K p q) (hs : Skips more sep)
    (hK : ∀ i t v j, W.left.At i t → sep t = true → p W.left (i + 1) = .ok v j → K i) :
    W.Copies (List.Forall₂ R) K (many more p) (many more q) :=
  .ofBound fun _ _ hn hn' _ _ => copies_manyAfter hs hp hK (Nat.lt_add_left _ hn) (Nat.lt_add_left _ hn')

theorem CopiesFrom.commaSeparated (hp : W.Copies R K p q) (hK : ∀ i t, W.left.At i t → t.kind = .comma → K i) :
    W.Copies (List.Forall₂ R) K (commaSeparated p) (commaSeparated q) := by
  have hs : Skips (skipKind .comma) (·.kind == .comma) := skips_kind (by decide)
  refine hp.bind (fun a m v j h hj => ?_) fun a b hab =>
    (hp.many hs fun i t _ _ ht hk _ => hK i t ht (eq_of_beq hk)).bind (fun _ _ _ _ h hj => ?_) fun _ _ hall =>
      .pure (.cons hab hall)
  · obtain ⟨xs, k, hxs, h⟩ := bind_elim h
    cases h
    rcases many_elim hs hxs with rfl | ⟨t, x, k, ht, hk, -⟩
    · exact hj
    · exact hK m t ht (eq_of_beq hk)
  · cases h
    exact hj

end Window

end Utterance.Grammar

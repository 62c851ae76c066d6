import Utterance.Proofs.Edges

/-!
# Ways through a text

`ScansTo` says that a scan leads from one cursor to another one. Every token of a scan has such a way to it
(`ScansTo.of_scanRest`), and a way that leads up to an edge can be taken before another edge, too (`ScansTo.widen`).
-/

namespace Utterance.Token

open List

theorem sees_of_alike {x x' : Lexeme} (h : x.Alike x') : Sees (ofLexeme? x) (ofLexeme? x') := by
  cases h with
  | token h => exact .some h.kind.symm h.value.symm
  | refused d d' => exact .none

/-- Scanning leads from one cursor to another one, step by step: what is found on the way, and the last token. -/
inductive ScansTo : Option Token → Cursor → List Lexeme → Option Token → Cursor → Prop
  | here (last : Option Token) (cur : Cursor) : ScansTo last cur [] last cur
  | trivia {last last' cur after cur' c cs xs} : cur.rest = c :: cs → step last cur c = .trivia after →
    ScansTo last after xs last' cur' → ScansTo last cur xs last' cur'
  | lexeme {last last' cur after cur' c cs x xs} : cur.rest = c :: cs → step last cur c = .lexeme x after →
    ScansTo (ofLexeme? x) after xs last' cur' → ScansTo last cur (x :: xs) last' cur'

namespace ScansTo

variable {last last' : Option Token} {cur cur' : Cursor} {xs : List Lexeme}

section

variable (h : ScansTo last cur xs last' cur')
include h

theorem scanRest : scanRest last cur = (Token.scanRest last' cur').map (xs ++ ·) := by
  induction h with
  | here last cur => cases Token.scanRest last cur <;> rfl
  | trivia hr hs _ ih =>
    rw [scanRest_cons hr, hs]
    exact ih
  | @lexeme last last' cur after cur' c cs x xs hr hs _ ih =>
    rw [scanRest_cons hr, hs, Step.followedBy, ih]
    cases Token.scanRest last' cur' <;> rfl

theorem leads : cur.Leads cur' := by
  induction h with
  | here => exact .refl _
  | trivia hr hs _ ih | lexeme hr hs _ ih => exact (passes_of_step hr (by rw [hs]; rfl)).toLeads.trans ih

theorem covers : cur'.rest = [] ∨ ∃ text, cur.Over text cur' := by
  have step {cur after cur' : Cursor} {xs : List Lexeme} {l m : Option Token}
      (h : after.rest = [] ∨ ∃ text, text ≠ [] ∧ cur.Over text after) (hway : ScansTo l after xs m cur')
      (h' : cur'.rest = [] ∨ ∃ text, after.Over text cur') : cur'.rest = [] ∨ ∃ text, cur.Over text cur' := by
    rcases h with h | ⟨text, -, h⟩
    · have hle := hway.leads.le
      rw [h] at hle
      exact .inl (length_eq_zero_iff.1 (Nat.le_zero.1 hle))
    · rcases h' with h' | ⟨text', h'⟩
      · exact .inl h'
      · exact .inr ⟨text ++ text', h.trans h'⟩
  induction h with
  | here last cur => exact .inr ⟨[], rfl, rfl⟩
  | trivia hr hs hway ih | lexeme hr hs hway ih => exact step (over_of_step hr (by rw [hs]; rfl)) hway ih

theorem suffix : cur'.rest <:+ cur.rest := by
  rcases h.covers with h | ⟨text, h⟩
  · rw [h]
    exact nil_suffix
  · exact ⟨text, h.rest.symm⟩

end

/-- Every lexeme of a scan but the end was found on a way to it. -/
theorem of_scanRest {init rest : List Lexeme} {x : Lexeme} (h : Token.scanRest last cur = .ok (init ++ x :: rest))
    (hx : ∀ t, x = .token t → t.kind ≠ .eof) : ∃ l cur' c cs after, ScansTo last cur init l cur' ∧ cur'.rest = c :: cs ∧
      step l cur' c = .lexeme x after ∧ Token.scanRest (ofLexeme? x) after = .ok rest := by
  induction hn : cur.rest.length using Nat.strongRecOn generalizing last cur init with
  | ind n ih =>
    subst hn
    cases hr : cur.rest with
    | nil =>
      rw [scanRest_nil hr] at h
      cases init with
      | nil =>
        cases h
        exact absurd rfl (hx _ rfl)
      | cons y init => cases init <;> cases h
    | cons c cs =>
      rcases scanRest_ok hr h with ⟨after, hs, hpass, ha⟩ | ⟨y, after, ys, hs, hpass, ha, hys⟩
      · obtain ⟨l, cur', d, ds, after', hway, hfound⟩ := ih _ hpass.lt ha rfl
        exact ⟨l, cur', d, ds, after', .trivia hr hs hway, hfound⟩
      · cases init with
        | nil =>
          cases hys
          exact ⟨last, cur, c, cs, after, .here _ _, hr, hs, ha⟩
        | cons z init =>
          cases hys
          obtain ⟨l, cur', d, ds, after', hway, hfound⟩ := ih _ hpass.lt ha rfl
          exact ⟨l, cur', d, ds, after', .lexeme hr hs hway, hfound⟩

/-- A scan that is refused leads to where it is. -/
theorem of_error {r : Refusal} (h : Token.scanRest last cur = .error r) :
    ∃ xs l cur' c cs, ScansTo last cur xs l cur' ∧ cur'.rest = c :: cs ∧ step l cur' c = .refuse r := by
  induction hn : cur.rest.length using Nat.strongRecOn generalizing last cur with
  | ind n ih =>
    subst hn
    cases hr : cur.rest with
    | nil =>
      rw [scanRest_nil hr] at h
      cases h
    | cons c cs =>
      rw [scanRest_cons hr] at h
      cases hs : step last cur c with
      | trivia after =>
        rw [hs] at h
        obtain ⟨xs, l, cur', d, ds, hway, hfound⟩ := ih _ (passes_of_step hr (by rw [hs]; rfl)).lt h rfl
        exact ⟨xs, l, cur', d, ds, .trivia hr hs hway, hfound⟩
      | lexeme x after =>
        rw [hs, Step.followedBy] at h
        cases hx : Token.scanRest (ofLexeme? x) after with
        | ok ys =>
          rw [hx] at h
          cases h
        | error r =>
          rw [hx] at h
          cases h
          obtain ⟨xs, l, cur', d, ds, hway, hfound⟩ := ih _ (passes_of_step hr (by rw [hs]; rfl)).lt hx rfl
          exact ⟨x :: xs, l, cur', d, ds, .lexeme hr hs hway, hfound⟩
      | refuse r' =>
        rw [hs] at h
        cases h
        exact ⟨[], last, cur, c, cs, .here _ _, hr, hs⟩

variable {z z' : List Char}

/-- A step on the way to an edge does not draw it in, and does the same before another one. -/
theorem step_before (hz : Edge z z') (hl : Sees last last') {after : Cursor} {c : Char} {cs r s : List Char}
    {p q : Position} (p' : Position) {m l : Option Token} (hr : s ++ z = c :: cs)
    (hs : (step last ⟨p, s ++ z⟩ c).after? = some after)
    (htail : ScansTo m after xs l ⟨q, r ++ z⟩)
    (hgt : r = [] → s = ['>'] → (∃ b ∈ z.head?, Cursor.isSpace b = true) →
      Step.Similar p p' z z' (step last ⟨p, '>' :: z⟩ '>') (step last' ⟨p', '>' :: z'⟩ '>')) :
    ¬after.rest.length < z.length ∧ (∃ cs', s ++ z' = c :: cs') ∧
      Step.Similar p p' z z' (step last ⟨p, s ++ z⟩ c) (step last' ⟨p', s ++ z'⟩ c) := by
  have hle := htail.leads.le
  have hlt := (passes_of_step hr hs).lt
  simp only [length_append] at hle hlt
  refine ⟨by omega, ?_⟩
  cases s with
  | nil =>
    rw [length_nil] at hlt
    omega
  | cons d s₀ =>
    obtain ⟨rfl, -⟩ := List.cons.inj hr
    refine ⟨⟨_, rfl⟩, step_similar hz hl fun hd hnil hb => ?_⟩
    subst hd hnil
    rw [length_singleton] at hlt
    exact hgt (eq_nil_of_length_eq_zero (by omega)) rfl hb

/-- The way to an edge, with another one there. Where it leads over a `>` right before blanks, that must mean the
same. -/
theorem widen (hz : Edge z z') (hne : z = [] → z' = []) {r s : List Char} {p q : Position} (p' : Position)
    {l : Option Token} (hl : Sees last last') (h : ScansTo last ⟨p, s ++ z⟩ xs l ⟨q, r ++ z⟩)
    (hgt : r = [] → (∃ b ∈ z.head?, Cursor.isSpace b = true) → ∀ ys m m' o o',
    ScansTo last ⟨p, s ++ z⟩ ys m ⟨o, '>' :: z⟩ →
      Sees m m' → Step.Similar o o' z z' (step m ⟨o, '>' :: z⟩ '>') (step m' ⟨o', '>' :: z'⟩ '>')) :
    ∃ xs' l' q', ScansTo last' ⟨p', s ++ z'⟩ xs' l' ⟨q', r ++ z'⟩ ∧ Forall₂ Lexeme.Alike xs xs' ∧ Sees l l' ∧
      (last = last' → p = p' → xs = xs' ∧ l = l' ∧ q = q') := by
  have hnot {s' : Step} : z = [] → z' ≠ [] → ∀ a', s'.after? = some a' → ¬a'.rest.length < z'.length :=
    fun hnil hnot => absurd (hne hnil) hnot
  generalize hcur : Cursor.mk p (s ++ z) = cur, hend : Cursor.mk q (r ++ z) = target at h
  induction h generalizing p p' s last' with
  | here last cur =>
    obtain ⟨rfl, hrest⟩ := Cursor.mk.inj (hcur.trans hend.symm)
    obtain rfl : s = r := append_cancel_right hrest
    exact ⟨[], last', p', .here _ _, .nil, hl, fun h h' => ⟨rfl, h, h'⟩⟩
  | @trivia last l cur after target c cs xs hr hs htail ih =>
    subst hcur hend
    obtain ⟨hbefore, ⟨cs', hr'⟩, hstep⟩ := step_before hz hl p' hr (by rw [hs]; rfl) htail fun hnil hgreater hb => by
      subst hgreater
      exact hgt hnil hb [] last last' p p' (.here _ _) hl
    rw [hs] at hstep
    obtain ⟨stop, u, rfl, hs'⟩ := hstep.of_trivia hbefore hnot
    obtain ⟨xs', l', q', hway, hxs, hsees, hsame⟩ := ih (stop p') hl
      (fun hnil hb ys m m' i i' hto => hgt hnil hb ys m m' i i' (.trivia hr hs hto)) rfl rfl
    exact ⟨xs', l', q', .trivia hr' hs' hway, hxs, hsees, fun h h' => hsame h (congrArg stop h')⟩
  | @lexeme last l cur after target c cs x xs hr hs htail ih =>
    subst hcur hend
    obtain ⟨hbefore, ⟨cs', hr'⟩, hstep⟩ := step_before hz hl p' hr (by rw [hs]; rfl) htail fun hnil hgreater hb => by
      subst hgreater
      exact hgt hnil hb [] last last' p p' (.here _ _) hl
    rw [hs] at hstep
    obtain ⟨y, stop, u, rfl, hy, rfl, hs'⟩ := hstep.of_lexeme hbefore hnot
    obtain ⟨xs', l', q', hway, hxs, hsees, hsame⟩ := ih (stop p') (sees_of_alike (hy p p'))
      (fun hnil hb ys m m' i i' hto => hgt hnil hb (y p :: ys) m m' i i' (.lexeme hr hs hto)) rfl rfl
    refine ⟨y p' :: xs', l', q', .lexeme hr' hs' hway, .cons (hy p p') hxs, hsees, fun _ h' => ?_⟩
    subst h'
    obtain ⟨rfl, hrest⟩ := hsame rfl rfl
    exact ⟨rfl, hrest⟩

end ScansTo

end Utterance.Token

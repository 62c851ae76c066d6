import Utterance.Proofs.Lexemes

/-!
# Scanning without fuel

Every step of a scan passes at least one character (`passes_of_step`), so that the number of characters is fuel
enough. `scanRest` scans what a cursor has left; `scanRest_nil` and `scanRest_cons` are its
equations, and everything else that is said about scanning rests on these.
-/

namespace Utterance

namespace Cursor

/-- One cursor comes after another one on the same text. Past the end of the text the position is of no interest. -/
structure Leads (cur after : Cursor) : Prop where
  le : after.rest.length ≤ cur.rest.length
  idx : after.rest ≠ [] → after.pos.idx + after.rest.length = cur.pos.idx + cur.rest.length

/-- At least one character stands between two cursors. -/
structure Passes (cur after : Cursor) : Prop extends cur.Leads after where
  lt : after.rest.length < cur.rest.length

variable {cur mid after : Cursor}

theorem Leads.refl (cur : Cursor) : cur.Leads cur := ⟨Nat.le_refl _, fun _ => rfl⟩

theorem Leads.trans (h : cur.Leads mid) (h' : mid.Leads after) : cur.Leads after := by
  refine ⟨Nat.le_trans h'.le h.le, fun hne => ?_⟩
  have hmid : mid.rest ≠ [] := by
    intro hnil
    have := h'.le
    rw [hnil] at this
    exact hne (List.eq_nil_of_length_eq_zero (Nat.le_zero.1 this))
  rw [h'.idx hne, h.idx hmid]

theorem Over.leads {text : List Char} (h : cur.Over text after) : cur.Leads after := by
  refine ⟨?_, fun _ => ?_⟩
  · rw [h.rest, List.length_append]
    omega
  · rw [h.pos, Position.afterAll_idx, h.rest, List.length_append]
    omega

end Cursor

namespace Token

variable {last : Option Token} {cur : Cursor} {cs : List Char}

variable {c : Char}

/-- A step passes at least one character. -/
theorem passes_of_step {after : Cursor} (hr : cur.rest = c :: cs) (h : (step last cur c).after? = some after) :
    cur.Passes after := by
  rcases over_of_step hr h with hnil | ⟨text, hne, hover⟩
  · refine ⟨⟨?_, absurd hnil⟩, ?_⟩
    · simp [hnil]
    · simp [hnil, hr]
  · have := List.length_pos_iff.2 hne
    refine ⟨hover.leads, ?_⟩
    rw [hover.rest, List.length_append]
    omega

def scanRest (last : Option Token) (cur : Cursor) : Except Refusal (List Lexeme) :=
  scanFrom cur.rest.length last cur

theorem scanFrom_step {fuel : Nat} (h : cur.rest = c :: cs) :
    scanFrom (fuel + 1) last cur = (step last cur c).followedBy (scanFrom fuel) last := by
  rw [scanFrom]
  split
  · next he => rw [h] at he; cases he
  · next he => rw [h] at he; cases he; rfl

/-- Scans of what is left after a step can be exchanged if they agree on everything shorter. -/
theorem followedBy_congr (h : cur.rest = c :: cs) {f g : Option Token → Cursor → Except Refusal (List Lexeme)}
    (hfg : ∀ last after, after.rest.length < cur.rest.length → f last after = g last after) :
    (step last cur c).followedBy f last = (step last cur c).followedBy g last := by
  have hlt (after : Cursor) (ha : (step last cur c).after? = some after) := (passes_of_step h ha).lt
  cases hs : step last cur c with
  | refuse r => rfl
  | trivia after => exact hfg last after (hlt after (by rw [hs]; rfl))
  | lexeme x after =>
    unfold Step.followedBy
    dsimp only
    rw [hfg (ofLexeme? x) after (hlt after (by rw [hs]; rfl))]

/-- More fuel than there are characters changes nothing. -/
theorem scanFrom_eq {fuel fuel' : Nat} (h : cur.rest.length ≤ fuel) (h' : cur.rest.length ≤ fuel') :
    scanFrom fuel last cur = scanFrom fuel' last cur := by
  induction fuel generalizing fuel' last cur with
  | zero =>
    have hr : cur.rest = [] := List.eq_nil_of_length_eq_zero (by omega)
    unfold scanFrom
    rw [hr]
  | succ fuel ih =>
    cases hr : cur.rest with
    | nil =>
      unfold scanFrom
      rw [hr]
    | cons c cs =>
      obtain _ | fuel' := fuel'
      · rw [hr] at h'
        simp at h'
      · rw [scanFrom_step hr, scanFrom_step hr]
        exact followedBy_congr hr fun last after hlt => ih (by omega) (by omega)

theorem scan_eq (source : Source) : scan source = scanRest none (Cursor.start source) := rfl

theorem scanRest_nil (h : cur.rest = []) : scanRest last cur = .ok [.token (mark .eof cur.pos)] := by
  unfold scanRest scanFrom
  rw [h]

theorem scanRest_cons {last : Option Token} {cur : Cursor} {c : Char} {cs : List Char} (h : cur.rest = c :: cs) :
    scanRest last cur = (step last cur c).followedBy scanRest last := by
  have hlen : cur.rest.length = cs.length + 1 := by rw [h]; rfl
  rw [scanRest, hlen, scanFrom_step h]
  exact followedBy_congr h fun last after hlt => scanFrom_eq (by omega) (Nat.le_refl _)

end Token

end Utterance

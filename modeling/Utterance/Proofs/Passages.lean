import Utterance.Proofs.Acceptance
import Utterance.Proofs.Leaves
import Utterance.Proofs.Levels
import Utterance.Proofs.Tails

/-!
# Passages of readings

`Passes` says that a reading goes from where some last tokens of a text begin to where others do. There is one lemma
for each small reading and for each way to combine readings. `Reach` says that a rule can be read with enough depth,
and how far it comes at least.
-/

namespace Utterance.Grammar

open Filter Reading

open Token (Kind)

variable {α β : Type} {ts l m r : List Token} {t : Token}

def place (ts l : List Token) : Nat := ts.length - l.length

theorem place_cons (h : t :: l <:+ ts) : place ts l = place ts (t :: l) + 1 := by
  have := h.length_le
  simp only [place, List.length_cons] at this ⊢
  omega

theorem at_place (h : t :: l <:+ ts) : (Input.ofTokens ts).At (place ts (t :: l)) t := by
  obtain ⟨before, rfl⟩ := h
  have hplace : place (before ++ t :: l) (t :: l) = before.length := by simp [place]
  rw [hplace]
  exact (Input.at_ofList (by simp)).2 (by simp)

/-- A reading goes from where some last tokens of a text begin to where others do. -/
def Passes (ts : List Token) (p : Reading α) (l m : List Token) : Prop :=
  l <:+ ts → m <:+ l ∧ ∃ a, p (.ofTokens ts) (place ts l) = .ok a (place ts m)

def Fails (ts : List Token) (p : Reading α) (l : List Token) : Prop :=
  l <:+ ts → ∃ d j, p (.ofTokens ts) (place ts l) = .fail d j

namespace Passes

variable {p q : Reading α} {f : α → Reading β}

theorem pure (a : α) : Passes ts (pure a) l l := fun _ => ⟨List.suffix_rfl, a, rfl⟩

theorem bind (h : Passes ts p l m) (hf : ∀ a, Passes ts (f a) m r) : Passes ts (p >>= f) l r := by
  intro hl
  obtain ⟨hm, a, ha⟩ := h hl
  obtain ⟨hr, b, hb⟩ := hf a (hm.trans hl)
  exact ⟨hr.trans hm, b, (bind_ok ha).trans hb⟩

theorem still {a : α} (h : l <:+ ts → p (.ofTokens ts) (place ts l) = .ok a (place ts l)) (hf : Passes ts (f a) l r) :
    Passes ts (p >>= f) l r := by
  intro hl
  obtain ⟨hr, b, hb⟩ := hf hl
  exact ⟨hr, b, (bind_ok (h hl)).trans hb⟩

theorem step {a : α} (h : t :: l <:+ ts → p (.ofTokens ts) (place ts (t :: l)) = .ok a (place ts (t :: l) + 1))
    (hf : Passes ts (f a) l r) : Passes ts (p >>= f) (t :: l) r := by
  intro hl
  obtain ⟨hr, b, hb⟩ := hf ((List.suffix_cons t l).trans hl)
  refine ⟨hr.trans (List.suffix_cons t l), b, (bind_ok (h hl)).trans ?_⟩
  rw [← place_cons hl]
  exact hb

theorem token {f : Token → Reading β} (h : Passes ts (f t) (t :: l) r) : Passes ts (token >>= f) (t :: l) r :=
  .still (fun hl => token_at (at_place hl)) h

theorem advance {f : Unit → Reading β} (h : Passes ts (f ()) l r) : Passes ts (advance >>= f) (t :: l) r :=
  .step (fun _ => rfl) h

theorem bound {f : Nat → Reading β} (h : Passes ts (f (ts.length + 1)) l r) : Passes ts (bound >>= f) l r :=
  .still (fun _ => by simp [Reading.bound, Reading.still, reply, Input.ofList]) h

theorem start {f : Position → Reading β} (h : ∀ p, Passes ts (f p) l r) : Passes ts (start >>= f) l r := by
  obtain ⟨p, hp⟩ := start_eq (.ofTokens ts) (place ts l)
  exact .still (fun _ => hp) (h p)

theorem stop {f : Position → Reading β} (h : ∀ p, Passes ts (f p) l r) : Passes ts (stop >>= f) l r := by
  obtain ⟨p, hp⟩ := stop_eq (.ofTokens ts) (place ts l)
  exact .still (fun _ => hp) (h p)

variable {word : String} {kind : Kind}

theorem expectKind {details : String} {f : Unit → Reading β} (hk : t.kind = kind) (h : Passes ts (f ()) l r) :
    Passes ts (expectKind kind details >>= f) (t :: l) r :=
  .step (fun hl => hk ▸ expectKind_at (at_place hl) _) h

theorem expectWord {details : String} {f : Unit → Reading β} (hw : t.isKeyword word = true) (h : Passes ts (f ()) l r) :
    Passes ts (expectWord word details >>= f) (t :: l) r := by
  refine .step (fun hl => (bind_ok (isWord_at (at_place hl) word)).trans ?_) h
  rw [hw]
  rfl

theorem identifier (hk : t.kind = .identifier) (details : String) : Passes ts (identifier details) (t :: l) l := by
  refine fun hl => ⟨List.suffix_cons t l, t, (bind_ok (isKind_at (at_place hl) .identifier)).trans ?_⟩
  rw [hk, place_cons hl]
  exact bind_ok (token_at (at_place hl))

theorem isKind_then (hk : t.kind = kind) (h : Passes ts p (t :: l) r) :
    Passes ts (isKind kind >>= fun b => if b then p else q) (t :: l) r := by
  refine .still (fun hl => isKind_at (at_place hl) kind) ?_
  rwa [hk, beq_self_eq_true, if_pos rfl]

theorem isKind_else (hk : t.kind ≠ kind) (h : Passes ts q (t :: l) r) :
    Passes ts (isKind kind >>= fun b => if b then p else q) (t :: l) r := by
  refine .still (fun hl => isKind_at (at_place hl) kind) ?_
  rwa [beq_false_of_ne hk, if_neg (by decide)]

theorem isWord_then (hw : t.isKeyword word = true) (h : Passes ts p (t :: l) r) :
    Passes ts (isWord word >>= fun b => if b then p else q) (t :: l) r := by
  refine .still (fun hl => isWord_at (at_place hl) word) ?_
  rwa [hw, if_pos rfl]

theorem isWord_else (hw : t.isKeyword word = false) (h : Passes ts q (t :: l) r) :
    Passes ts (isWord word >>= fun b => if b then p else q) (t :: l) r := by
  refine .still (fun hl => isWord_at (at_place hl) word) ?_
  rwa [hw, if_neg (by decide)]

theorem skipKind_then (hk : t.kind = kind) (h : Passes ts p l r) :
    Passes ts (skipKind kind >>= fun b => if b then p else q) (t :: l) r := by
  refine .step (a := true) (fun hl => ?_) h
  rw [skipKind_at (at_place hl), hk, beq_self_eq_true]
  rfl

theorem skipKind_else (hk : t.kind ≠ kind) (h : Passes ts q (t :: l) r) :
    Passes ts (skipKind kind >>= fun b => if b then p else q) (t :: l) r := by
  refine .still (a := false) (fun hl => ?_) h
  rw [skipKind_at (at_place hl), beq_false_of_ne hk]
  rfl

theorem skipWord_then (hw : t.isKeyword word = true) (h : Passes ts p l r) :
    Passes ts (skipWord word >>= fun b => if b then p else q) (t :: l) r := by
  refine .step (a := true) (fun hl => ?_) h
  rw [skipWord_at (at_place hl), hw]
  rfl

theorem skipWord_else (hw : t.isKeyword word = false) (h : Passes ts q (t :: l) r) :
    Passes ts (skipWord word >>= fun b => if b then p else q) (t :: l) r := by
  refine .still (a := false) (fun hl => ?_) h
  rw [skipWord_at (at_place hl), hw]
  rfl

theorem reword (h : Passes ts p l r) (details : String) : Passes ts (p.reword details) l r := by
  intro hl
  obtain ⟨hr, a, ha⟩ := h hl
  exact ⟨hr, a, reword_ok ha details⟩

theorem attempt {f : Except Nat α → Reading β} (h : Passes ts p l m) (hf : ∀ a, Passes ts (f (.ok a)) m r) :
    Passes ts (p.attempt >>= f) l r := by
  intro hl
  obtain ⟨hm, a, ha⟩ := h hl
  obtain ⟨hr, b, hb⟩ := hf a (hm.trans hl)
  refine ⟨hr.trans hm, b, (bind_ok ?_).trans hb⟩
  rw [reply_attempt, ha]

theorem attempt_fail {f : Except Nat α → Reading β} (h : Fails ts p l) (hf : ∀ n, Passes ts (f (.error n)) l r) :
    Passes ts (p.attempt >>= f) l r := by
  intro hl
  obtain ⟨d, j, hd⟩ := h hl
  obtain ⟨hr, b, hb⟩ := hf (j - place ts l) hl
  refine ⟨hr, b, (bind_ok ?_).trans hb⟩
  rw [reply_attempt, hd]

end Passes

/-- With enough depth, a rule passes some tokens, up to where `K` holds. -/
def Reach (ts : List Token) (p : Recursion → Reading α) (l : List Token) (K : List Token → Prop) : Prop :=
  ∃ m, K m ∧ ∀ᶠ n in atTop, Passes ts (p (read n)) l m

namespace Reach

variable {p : Recursion → Reading α} {K : List Token → Prop}

theorem of_passes (hK : K r) (h : ∀ᶠ n in atTop, Passes ts (p (Grammar.read n)) l r) : Reach ts p l K := ⟨r, hK, h⟩

theorem imp {β : Type} {q : Recursion → Reading β} (h : Reach ts p l K)
    (hq : ∀ᶠ n in atTop, ∀ r, Passes ts (p (Grammar.read n)) l r → Passes ts (q (Grammar.read n)) m r) :
    Reach ts q m K := by
  obtain ⟨r, hK, h⟩ := h
  refine ⟨r, hK, ?_⟩
  filter_upwards [h, hq] with n hp hq
  exact hq r hp

theorem read {part : Part} {p : Recursion → Reading Node} (hp : ∀ n, Grammar.read (n + 1) part = p (Grammar.read n))
    (h : Reach ts p l K) : Reach ts (fun rec => rec part) l K := by
  obtain ⟨m, hK, h⟩ := h
  refine .of_passes hK ?_
  filter_upwards [eventually_succ h] with _ ⟨n, hn, h⟩
  rw [hn, hp]
  exact h

end Reach

end Utterance.Grammar

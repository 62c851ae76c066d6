import Utterance.Proofs.Matching

/-!
# Computations in matched worlds

`Matching.Meets C` compares two computations in matched worlds: if the first one ends in a world with the property
`C`, so does the other one, with results and worlds that match. For the property that nothing was spoiled it must be
known that what comes later does not take it back (`Keeps`), which follows from the growth of the log.

There is one exception: where only the second world is known to have seen the function `append`, a call of it fails in
the first world for good (`Matching.Loses`), and then nothing is said of the second.
-/

namespace Utterance

namespace Matching

open Eval

variable {M : Matching} {n m : Nat} {w w' v v' : World}

variable (M) {α β γ δ σ τ : Type}

/-- A function was called that was not seen anywhere yet; the second world may have seen it. -/
def Loses (s : Signal) : Prop := M.apart.isSome = true ∧ s = .fault (.noAttribute "NoneType" "symbol_table")

/-- Both end with results, related by `R`, or both with the same signal, and leave matched worlds with at least `n`
values; or the first one is lost. -/
inductive Outcomes (n : Nat) (R : Nat → α → β → Prop) : Outcome α → Outcome β → Prop
  | ok {a b v v'} : n ≤ v.size → M.Worlds v v' → R v.size a b → Outcomes n R (.ok a v) (.ok b v')
  | error {s s' v v'} : n ≤ v.size → M.Worlds v v' → s.Alike (M.Twins v.size) s' →
    Outcomes n R (.error s v) (.error s' v')
  | lost {s v y} : M.Loses s → Outcomes n R (.error s v) y

/-- If the first computation ends in a world with a property, then the other one ends likewise. -/
def Meets (C : World → Prop) (R : Nat → α → β → Prop) (x : Eval α) (y : Eval β) (w w' : World) : Prop :=
  Ends (x w) → C (after (x w)) → M.Outcomes w.size R (x w) (y w')

def Always (_ : World) : Prop := True

/-- If the first computation ends, then the other one ends likewise. -/
abbrev Steady (R : Nat → α → β → Prop) : Eval α → Eval β → World → World → Prop := M.Meets Always R

/-- Both computations end likewise, with values that stand for each other. -/
abbrev Agree : Eval Ref → Eval Ref → World → World → Prop := M.Steady M.Twins

/-- A computation that ends in a world with a property starts in one. -/
class Keeps (C : World → Prop) (x : Eval α) : Prop where
  before : ∀ w, Ends (x w) → C (after (x w)) → C w

/-- A computation that adds to the log, and leaves what can be called. -/
class Growing (x : Eval α) : Prop where
  lasts : ∀ w, Ends (x w) → Lasts w (after (x w))

instance (x : Eval α) : Keeps Always x := ⟨fun _ _ _ => trivial⟩

instance (x : Eval α) [h : Growing x] : Keeps M.Calm x := ⟨fun w he hc => hc.of_lasts (h.lasts w he)⟩

variable {M} {C : World → Prop} {R : Nat → α → β → Prop} {S : Nat → γ → δ → Prop}

theorem Outcomes.mono {x : Outcome α} {y : Outcome β} (h : M.Outcomes m R x y) (hn : n ≤ m) : M.Outcomes n R x y := by
  cases h with
  | ok hm hw hr => exact .ok (Nat.le_trans hn hm) hw hr
  | error hm hw hs => exact .error (Nat.le_trans hn hm) hw hs
  | lost hs => exact .lost hs

/-- What matches something ends, unless that is lost. -/
theorem Outcomes.ends_or {x : Outcome α} {y : Outcome β} (h : M.Outcomes n R x y) :
    Ends y ∨ ∀ y' : Outcome β, M.Outcomes n R x y' := by
  cases h with
  | ok => exact .inl (ends_ok _ _)
  | error _ _ hs =>
    refine .inl (ends_error.2 fun he => ?_)
    subst he
    cases hs
  | lost hs => exact .inr fun _ => .lost hs

variable {f : α → Eval γ} {x : Eval α} {y : Eval β} {g : β → Eval δ}

theorem Outcomes.bind (h : M.Outcomes n R (x w) (y w'))
    (hf : ∀ a b v v', x w = .ok a v → n ≤ v.size → M.Worlds v v' → R v.size a b →
      M.Outcomes v.size S (f a v) (g b v')) : M.Outcomes n S ((x >>= f) w) ((y >>= g) w') := by
  generalize hx : x w = p, hy : y w' = q at h
  cases h with
  | ok hn hw hr =>
    rw [bind_ok hx, bind_ok hy]
    exact (hf _ _ _ _ hx hn hw hr).mono hn
  | error hn hw hs =>
    rw [bind_error hx, bind_error hy]
    exact .error hn hw hs
  | lost hs =>
    rw [bind_error hx]
    exact .lost hs

theorem ends_of_bind (h : Ends ((x >>= f) w)) : Ends (x w) := by
  cases hx : x w with
  | ok a v => exact ends_ok a v
  | error s v => rw [bind_error hx] at h; exact ends_error.2 (ends_error.1 h)

theorem Steady.meets (h : M.Steady R x y w w') : M.Meets C R x y w w' :=
  fun he _ => h he trivial

theorem Steady.bindOf (hx : M.Steady R x y w w')
    (hf : ∀ a b v v', x w = .ok a v → w.size ≤ v.size → M.Worlds v v' → R v.size a b → M.Meets C S (f a) (g b) v v') :
    M.Meets C S (x >>= f) (y >>= g) w w' := by
  intro he hc
  refine (hx (ends_of_bind he) trivial).bind fun a b v v' ha hn hw hr => ?_
  rw [bind_ok ha] at he hc
  exact hf a b v v' ha hn hw hr he hc

theorem Steady.bind (hx : M.Steady R x y w w')
    (hf : ∀ a b v v', w.size ≤ v.size → M.Worlds v v' → R v.size a b → M.Meets C S (f a) (g b) v v') :
    M.Meets C S (x >>= f) (y >>= g) w w' :=
  hx.bindOf fun a b v v' _ => hf a b v v'

theorem before_of_bind (hk : ∀ a, Keeps C (f a)) (he : Ends ((x >>= f) w)) (hc : C (after ((x >>= f) w))) :
    C (after (x w)) := by
  cases hr : x w with
  | ok a v =>
    rw [bind_ok hr] at he hc
    exact (hk a).before v he hc
  | error s v => rwa [bind_error hr] at hc

section

variable (hx : M.Meets C R x y w w')
include hx

theorem Meets.andThen (hk : ∀ a, Keeps C (f a))
    (hf : ∀ a b v v', w.size ≤ v.size → M.Worlds v v' → R v.size a b → M.Meets C S (f a) (g b) v v') :
    M.Meets C S (x >>= f) (y >>= g) w w' := by
  intro he hc
  refine (hx (ends_of_bind he) (before_of_bind hk he hc)).bind fun a b v v' ha hn hw hr => ?_
  rw [bind_ok ha] at he hc
  exact hf a b v v' hn hw hr he hc

theorem Meets.andLasts [hg : Growing x] (hk : ∀ a, Keeps C (f a))
    (hf : ∀ a b v v', Lasts w v → M.Worlds v v' → R v.size a b → M.Meets C S (f a) (g b) v v') :
    M.Meets C S (x >>= f) (y >>= g) w w' := by
  intro he hc
  have hlasts := hg.lasts w (ends_of_bind he)
  refine (hx (ends_of_bind he) (before_of_bind hk he hc)).bind fun a b v v' ha hn hw hr => ?_
  rw [bind_ok ha] at he hc
  rw [ha] at hlasts
  exact hf a b v v' hlasts hw hr he hc

theorem Meets.bind [hk : ∀ a, Keeps C (f a)]
    (hf : ∀ a b v v', w.size ≤ v.size → M.Worlds v v' → R v.size a b → M.Meets C S (f a) (g b) v v') :
    M.Meets C S (x >>= f) (y >>= g) w w' :=
  hx.andThen hk hf

/-- Handlers that do not handle endless evaluation, and what they do where the first computation is lost. -/
theorem Meets.handle {f : Signal → Eval α} {g : Signal → Eval β} (hk : ∀ s, Keeps C (f s))
    (hs : f .exhausted = throw .exhausted)
    (hl : ∀ s v, x w = .error s v → M.Loses s → Ends (f s v) → C (after (f s v)) →
      ∀ r : Outcome β, M.Outcomes w.size R (f s v) r)
    (hf : ∀ s s' v v', w.size ≤ v.size → M.Worlds v v' → s.Alike (M.Twins v.size) s' →
      M.Meets C R (f s) (g s') v v') : M.Meets C R (tryCatch x f) (tryCatch y g) w w' := by
  intro he hc
  cases hr : x w with
  | ok a v =>
    rw [tryCatch_ok hr] at he hc ⊢
    have ho := hx (by rw [hr]; exact ends_ok a v) (by rwa [hr])
    rw [hr] at ho
    generalize hy : y w' = q at ho
    cases ho with
    | ok hn hw hr => rw [tryCatch_ok hy]; exact .ok hn hw hr
  | error s v =>
    rw [tryCatch_error hr] at he hc ⊢
    have hne : s ≠ .exhausted := by
      rintro rfl
      exact he v (by rw [hs]; rfl)
    have ho := hx (by rwa [hr, ends_error]) (by rw [hr]; exact (hk s).before v he hc)
    rw [hr] at ho
    generalize hy : y w' = q at ho
    cases ho with
    | error hn hw hs =>
      rw [tryCatch_error hy]
      exact (hf _ _ _ _ hn hw hs he hc).mono hn
    | lost hs => exact hl s v hr hs he hc _

theorem Meets.tryCatch {f : Signal → Eval α} {g : Signal → Eval β}
    (hk : ∀ s, Keeps C (f s)) (hs : f .exhausted = throw .exhausted) (hl : ∀ e, f (.fault e) = throw (.fault e))
    (hf : ∀ s s' v v', w.size ≤ v.size → M.Worlds v v' → s.Alike (M.Twins v.size) s' →
      M.Meets C R (f s) (g s') v v') : M.Meets C R (tryCatch x f) (tryCatch y g) w w' := by
  refine hx.handle hk hs (fun s v _ hlost _ _ r => ?_) hf
  obtain ⟨ha, rfl⟩ := hlost
  rw [hl]
  exact .lost ⟨ha, rfl⟩

end

theorem growing_of_moves (h : Eval.Moves frame x) : Growing x :=
  ⟨fun w he => (h w he).lasts⟩

instance (a : α) : Keeps C (pure a : Eval α) := ⟨fun _ _ h => h⟩

instance (s : Signal) : Keeps C (throw s : Eval α) := ⟨fun _ _ h => h⟩

theorem Keeps.bind (hx : Keeps C x) (hf : ∀ a, Keeps C (f a)) : Keeps C (x >>= f) :=
  ⟨fun w he hc => hx.before w (ends_of_bind he) (before_of_bind hf he hc)⟩

instance (x : Eval α) (f : α → Eval γ) [hx : Keeps C x] [hf : ∀ a, Keeps C (f a)] : Keeps C (x >>= f) := hx.bind hf

instance (c : Prop) [Decidable c] (x y : Eval α) [Keeps C x] [Keeps C y] : Keeps C (if c then x else y) := by
  split <;> assumption

instance (f : γ → Eval α) (l : List γ) [∀ a, Keeps C (f a)] : Keeps C (l.mapM f) := by
  induction l with
  | nil => exact inferInstanceAs (Keeps C (pure []))
  | cons a l ih => rw [List.mapM_cons]; infer_instance

theorem Meets.pure {a : α} {b : β} (hw : M.Worlds w w') (h : R w.size a b) : M.Meets C R (pure a) (pure b) w w' :=
  fun _ _ => .ok (Nat.le_refl _) hw h

theorem Meets.throw {s s' : Signal} (hw : M.Worlds w w') (h : s.Alike (M.Twins w.size) s') :
    M.Meets C R (throw s) (throw s') w w' :=
  fun _ _ => .error (Nat.le_refl _) hw h

theorem Meets.mapM {f : γ → Eval α} {g : δ → Eval β} {Q : γ → δ → Prop} {l : List γ} {l' : List δ}
    [∀ a, Keeps C (f a)] (hR : ∀ {n m a b}, n ≤ m → R n a b → R m a b) (hw : M.Worlds w w') (hl : List.Forall₂ Q l l')
    (h : ∀ a b v v', Q a b → w.size ≤ v.size → M.Worlds v v' → M.Meets C R (f a) (g b) v v') :
    M.Meets C (fun n => List.Forall₂ (R n)) (l.mapM f) (l'.mapM g) w w' := by
  induction hl generalizing w w' with
  | nil => exact .pure hw .nil
  | cons hq hl ih =>
    rw [List.mapM_cons, List.mapM_cons]
    refine (h _ _ w w' hq (Nat.le_refl _) hw).bind fun a b v v' hn hv hr => ?_
    have hrest := ih hv fun a b u u' hq hm hu => h a b u u' hq (Nat.le_trans hn hm) hu
    exact hrest.bind fun as bs u u' hm hu hrs => .pure hu (.cons (hR hm hr) hrs)

section

variable {κ : Type} (O : κ → Outcome α → Outcome β → Prop) (S : κ → σ → World → τ → World → Prop)

/-- How a round of two repeated computations goes if `O k` is to be shown of them: it is shown, or both go on from
states for which less is to be shown. -/
inductive Round (k : κ) : Outcome (σ ⊕ α) → Outcome (τ ⊕ β) → Prop
  | next {k' s t v v'} : S k' s v t v' → (∀ x y, O k' x y → O k x y) → Round k (.ok (.inl s) v) (.ok (.inl t) v')
  | done {a b v v'} : O k (.ok a v) (.ok b v') → Round k (.ok (.inr a) v) (.ok (.inr b) v')
  | failed {e e' v v'} : O k (.error e v) (.error e' v') → Round k (.error e v) (.error e' v')
  | lost {e v y} : (∀ r, O k (.error e v) r) → Round k (.error e v) y

variable {O S}

/-- Repeated rounds from related states, where the first computation ends in a world with a property and, if without a
result, with a signal of some kind. -/
theorem Round.iterate {step : σ → Eval (σ ⊕ α)} {step' : τ → Eval (τ ⊕ β)} {E : Signal → Prop} (hE : ¬ E .exhausted)
    [hk : ∀ s, Keeps C (step s)]
    (h : ∀ k s v t v', S k s v t v' → (∀ e u, step s v = .error e u → E e) → C (after (step s v)) →
      Round O S k (step s v) (step' t v'))
    {k : κ} {s : σ} {t : τ} (hs : S k s w t w') (he : ∀ e u, iterate step s w = .error e u → E e)
    (hc : C (after (iterate step s w))) : O k (iterate step s w) (iterate step' t w') := by
  have ends : Ends (Eval.iterate step s w) := fun u hu => hE (he _ u hu)
  -- The property of the last world goes back through all rounds, and the rounds of the other side follow.
  have key : (∀ e u, Eval.iterate step s w = .error e u → E e) → C (after (Eval.iterate step s w)) →
      C w ∧ ∀ k t w', S k s w t w' →
        (∃ r, Eval.iterate? step' t w' = some r ∧ O k (Eval.iterate step s w) r) ∨
          ∀ r, O k (Eval.iterate step s w) r := by
    refine iterate_induction (P := fun s v r => (∀ e u, r = .error e u → E e) → C (after r) →
      C v ∧ ∀ k t v', S k s v t v' → (∃ r', iterate? step' t v' = some r' ∧ O k r r') ∨ ∀ r', O k r r')
      ?_ ?_ ?_ s w ends
    · intro s v s' u r hs ih hr hc
      obtain ⟨hu, ih⟩ := ih hr hc
      refine ⟨(hk s).before v (by rw [hs]; exact ends_ok _ _) (by rw [hs]; exact hu), fun k t v' hv => ?_⟩
      have ho := h k s v t v' hv (by rw [hs]; intro _ _ he; cases he) (by rw [hs]; exact hu)
      rw [hs] at ho
      rw [iterate?]
      generalize step' t v' = p at ho ⊢
      cases ho with
      | next hn hO =>
        rcases ih _ _ _ hn with ⟨r', hr', ho⟩ | ho
        · exact .inl ⟨r', hr', hO _ _ ho⟩
        · exact .inr fun r' => hO _ _ (ho r')
    · intro s v a u hs hr hc
      refine ⟨(hk s).before v (by rw [hs]; exact ends_ok _ _) (by rw [hs]; exact hc), fun k t v' hv => ?_⟩
      have ho := h k s v t v' hv (by rw [hs]; intro _ _ he; cases he) (by rw [hs]; exact hc)
      rw [hs] at ho
      rw [iterate?]
      generalize step' t v' = p at ho ⊢
      cases ho with
      | done ho => exact .inl ⟨_, rfl, ho⟩
    · intro s v e u hs hr hc
      have hne : e ≠ .exhausted := fun heq => hE (heq ▸ hr e u rfl)
      refine ⟨(hk s).before v (by rw [hs]; exact ends_error.2 hne) (by rw [hs]; exact hc), fun k t v' hv => ?_⟩
      have ho := h k s v t v' hv (by rw [hs]; intro _ _ he; cases he; exact hr e u rfl) (by rw [hs]; exact hc)
      rw [hs] at ho
      rw [iterate?]
      generalize step' t v' = p at ho ⊢
      cases ho with
      | failed ho => exact .inl ⟨_, rfl, ho⟩
      | lost ho => exact .inr ho
  rcases (key he hc).2 k t w' hs with ⟨r, hr, ho⟩ | hlost
  · rw [iterate.eq_1 step', hr]
    exact ho
  · exact hlost _

end

theorem Meets.iterate {step : σ → Eval (σ ⊕ α)} {step' : τ → Eval (τ ⊕ β)} {Q : Nat → σ → τ → Prop}
    [∀ s, Keeps C (step s)]
    (h : ∀ s t v v', w.size ≤ v.size → M.Worlds v v' → Q v.size s t →
      M.Meets C (fun n => Sum.LiftRel (Q n) (R n)) (step s) (step' t) v v')
    {s : σ} {t : τ} (hw : M.Worlds w w') (hq : Q w.size s t) :
    M.Meets C R (iterate step s) (iterate step' t) w w' := by
  intro he hc
  refine Round.iterate (O := fun n x y => M.Outcomes n R x y)
    (S := fun n s v t v' => n ≤ v.size ∧ w.size ≤ v.size ∧ M.Worlds v v' ∧ Q v.size s t) (E := (· ≠ .exhausted))
    (fun hne => hne rfl) (fun n s v t v' hS hends hc => ?_) ⟨Nat.le_refl _, Nat.le_refl _, hw, hq⟩
    (fun e u hu heq => he u (heq ▸ hu)) hc
  obtain ⟨hn, hle, hv, hq⟩ := hS
  have ho := h s t v v' hle hv hq (fun u hu => hends _ u hu rfl) hc
  generalize step s v = x, step' t v' = y at ho ⊢
  cases ho with
  | ok hm hu hr =>
    cases hr with
    | inl hq => exact .next ⟨Nat.le_refl _, Nat.le_trans hle hm, hu, hq⟩ fun _ _ ho => ho.mono (Nat.le_trans hn hm)
    | inr hr => exact .done (.ok (Nat.le_trans hn hm) hu hr)
  | error hm hu hs => exact .failed (.error (Nat.le_trans hn hm) hu hs)
  | lost hs => exact .lost fun _ => .lost hs

end Matching

end Utterance

import Utterance.Eval.Approximation

/-!
# Evaluation

`evaluate` is the least solution of the recursion of `step`: a node is evaluated by evaluating its parts and the
bodies of the functions that are called, to any depth. `evaluate_eq` unfolds it, `evaluateTo_approximates` compares it
with evaluation to a given depth, and `evaluate_induction` proves properties of evaluations that end.
-/

namespace Utterance

variable {α : Type}

def Ends (r : Outcome α) : Prop := ∀ w, r ≠ .error .exhausted w

@[simp] theorem ends_ok (a : α) (w : World) : Ends (.ok a w : Outcome α) := fun _ h => nomatch h

@[simp] theorem ends_error {s : Signal} {w : World} : Ends (.error s w : Outcome α) ↔ s ≠ .exhausted := by
  refine ⟨fun h hs => h w (by rw [hs]), fun h v hv => ?_⟩
  injection hv with hs
  exact h hs

namespace Eval

def ended : Outcome α → Option (Outcome α)
  | .error .exhausted _ => none
  | r => some r

/-- The evaluator that never ends where nothing is given. -/
def total (ev : Node → Frame → World → Option (Outcome Ref)) : Evaluator := fun node frame w =>
  (ev node frame w).getD (.error .exhausted w)

def evaluate? (node : Node) (frame : Frame) (w : World) : Option (Outcome Ref) :=
  ended (step (total (by apply evaluate?)) node frame w)
partial_fixpoint monotonicity by
  intro ev ev' h node frame w
  have hev : EvaluatorApproximates (total ev) (total ev') := by
    intro node frame w
    have hw := h node frame w
    unfold total
    generalize ev node frame w = x, ev' node frame w = y at hw ⊢
    cases hw with
    | bot => exact .inl ⟨w, rfl⟩
    | refl => exact .inr rfl
  have hw := step_approximates hev node frame w
  dsimp only
  generalize step (total ev) node frame w = x, step (total ev') node frame w = y at hw ⊢
  rcases hw with ⟨v, rfl⟩ | rfl <;> constructor

def evaluate : Evaluator := total evaluate?

theorem ended_eq_some {r r' : Outcome α} : ended r = some r' ↔ r = r' ∧ Ends r := by
  unfold ended Ends
  split <;> simp_all

theorem ended_of_ends {r : Outcome α} (h : Ends r) : ended r = some r := ended_eq_some.2 ⟨rfl, h⟩

theorem evaluate_eq {node : Node} {frame : Frame} {w : World} (h : Ends (step evaluate node frame w)) :
    evaluate node frame w = step evaluate node frame w := by
  show (evaluate? node frame w).getD _ = _
  rw [evaluate?]
  exact congrArg (Option.getD · _) (ended_of_ends h)

theorem evaluate_of_step {node : Node} {frame : Frame} {w : World} {x : Outcome Ref}
    (h : step evaluate node frame w = x) (hx : Ends x) : evaluate node frame w = x := by
  rw [← h] at hx ⊢
  exact evaluate_eq hx

theorem evaluate_ok {node : Node} {frame : Frame} {w v : World} {r : Ref}
    (h : step evaluate node frame w = .ok r v) : evaluate node frame w = .ok r v :=
  evaluate_of_step h (ends_ok r v)

theorem evaluate_eq_of_ends {node : Node} {frame : Frame} {w : World} (h : Ends (evaluate node frame w)) :
    evaluate node frame w = step evaluate node frame w := by
  by_cases hs : Ends (step evaluate node frame w)
  · exact evaluate_eq hs
  · refine absurd ?_ (h w)
    have hn : ended (step evaluate node frame w) = none := by
      cases he : ended (step evaluate node frame w) with
      | none => rfl
      | some r => exact absurd (ended_eq_some.1 he).2 hs
    show (evaluate? node frame w).getD _ = _
    rw [evaluate?]
    exact congrArg (Option.getD · _) hn

def evaluateTo : Nat → Evaluator
  | 0 => fun _ _ => throw .exhausted
  | depth + 1 => step (evaluateTo depth)

theorem evaluateTo_approximates (depth : Nat) : EvaluatorApproximates (evaluateTo depth) evaluate := by
  induction depth with
  | zero => exact fun _ _ w => .inl ⟨w, rfl⟩
  | succ depth ih =>
    intro node frame w
    rcases step_approximates ih node frame w with h | h
    · exact .inl h
    · by_cases hs : Ends (step evaluate node frame w)
      · exact .inr (h.trans (evaluate_eq hs).symm)
      · left
        show ∃ v, step (evaluateTo depth) node frame w = _
        rw [h]
        unfold Ends at hs
        simpa using hs

/-- What every step keeps if the evaluator of the parts does holds of every evaluation that ends. -/
theorem evaluate_induction {P : Node → Frame → World → Outcome Ref → Prop}
    (h : ∀ ev : Evaluator, (∀ node frame w, Ends (ev node frame w) → P node frame w (ev node frame w)) →
      ∀ node frame w, Ends (step ev node frame w) → P node frame w (step ev node frame w))
    (node : Node) (frame : Frame) (w : World) (he : Ends (evaluate node frame w)) :
    P node frame w (evaluate node frame w) := by
  have key : ∀ node frame w r, evaluate? node frame w = some r → P node frame w r := by
    apply evaluate?.partial_correctness
    intro ev ih node frame w r hr
    obtain ⟨rfl, hs⟩ := ended_eq_some.1 hr
    refine h (total ev) (fun node frame w hev => ?_) node frame w hs
    cases hr : ev node frame w with
    | none => exact absurd (by rw [total, hr]; rfl) (hev w)
    | some r =>
      have := ih node frame w r hr
      rwa [total, hr]
  cases hr : evaluate? node frame w with
  | none => exact absurd (by rw [evaluate, total, hr]; rfl) (he w)
  | some r =>
    have := key node frame w r hr
    rwa [evaluate, total, hr]

theorem iterate_induction {σ : Type} {step : σ → Eval (σ ⊕ α)} {P : σ → World → Outcome α → Prop}
    (next : ∀ s w s' w' r, step s w = .ok (.inl s') w' → P s' w' r → P s w r)
    (done : ∀ s w a w', step s w = .ok (.inr a) w' → P s w (.ok a w'))
    (failed : ∀ s w e w', step s w = .error e w' → P s w (.error e w'))
    (s : σ) (w : World) (he : Ends (iterate step s w)) : P s w (iterate step s w) := by
  have key : ∀ s w r, iterate? step s w = some r → P s w r := by
    apply iterate?.partial_correctness
    intro rec ih s w r hr
    unfold continued at hr
    split at hr
    · next s' w' hs => exact next s w s' w' r hs (ih s' w' r hr)
    · next a w' hs => obtain rfl := Option.some.inj hr; exact done s w a w' hs
    · next e w' hs => obtain rfl := Option.some.inj hr; exact failed s w e w' hs
  cases hr : iterate? step s w with
  | none => exact absurd (by rw [iterate, hr]; rfl) (he w)
  | some r =>
    have := key s w r hr
    rwa [iterate, hr]

end Eval

end Utterance

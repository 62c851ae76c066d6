import Utterance.Proofs.Reach

/-!
# A repetition is its body and then a loop

A loop tests its condition and then runs its body, round by round; a repetition does the same, but starts with the
body. So a repetition is its body, run once, and then a loop (`evaluate_repetition`). This holds for everything the
body or the condition can end with, after any number of rounds, and also where the rounds never end.

What a loop does is the least solution of an equation (`rounds?_eq`, `rounds?_induction`). Both loops are rounds of
the same two parts, in the one order and in the other, and rounds can be cut between their parts (`rounds?_rotate`).
-/

namespace Utterance.Eval

/-- Goes on from the outcome of a round, unless it was the last one or failed. -/
def proceed (more : World → Option (Outcome Unit)) : Outcome Bool → Option (Outcome Unit)
  | .ok true w => more w
  | .ok false w => some (.ok () w)
  | .error s w => some (.error s w)

def rounds? (round : Eval Bool) : World → Option (Outcome Unit) :=
  iterate? (fun _ => return if ← round then .inl () else .inr ()) ()

variable {round first second : Eval Bool}

theorem continued_round (more : World → Option (Outcome Unit)) (w : World) :
    continued (fun _ => more) ((do return if ← round then .inl () else .inr () : Eval (Unit ⊕ Unit)) w) =
      proceed more (round w) := by
  cases h : round w with
  | error s v => rw [bind_error h]; rfl
  | ok again v =>
    rw [bind_ok h]
    cases again <;> rfl

theorem rounds?_eq (round : Eval Bool) (w : World) : rounds? round w = proceed (rounds? round) (round w) := by
  rw [← continued_round]
  unfold rounds?
  rw [iterate?]

/-- What holds of all rounds if it holds of one round before them holds of rounds that end. -/
theorem rounds?_induction {P : World → Outcome Unit → Prop}
    (h : ∀ more, (∀ w r, more w = some r → P w r) → ∀ w r, proceed more (round w) = some r → P w r) :
    ∀ w r, rounds? round w = some r → P w r := by
  have key : ∀ (s : Unit) w r, iterate? (fun _ => return if ← round then .inl () else .inr ()) s w =
      some r → P w r := by
    apply iterate?.partial_correctness
    intro more ih s w r hr
    refine h (more ()) (ih ()) w r ?_
    rw [← continued_round]
    exact hr
  exact key ()

def andAlso (first second : Eval Bool) : Eval Bool := do
  if ← first then second else return false

theorem proceed_andAlso (more : World → Option (Outcome Unit)) (w : World) :
    proceed more (andAlso first second w) = proceed (fun v => proceed more (second v)) (first w) := by
  unfold andAlso
  cases h : first w with
  | error s v => rw [bind_error h]; rfl
  | ok again v =>
    rw [bind_ok h]
    cases again <;> rfl

/-- Rounds of two parts are the first part and then rounds of the second part and the first. -/
theorem rounds?_rotate (first second : Eval Bool) (w : World) :
    rounds? (andAlso first second) w = proceed (rounds? (andAlso second first)) (first w) := by
  -- each side is the least solution of its equation, and each solves the equation of the other
  have left : ∀ w r, rounds? (andAlso first second) w = some r →
      proceed (rounds? (andAlso second first)) (first w) = some r := by
    refine rounds?_induction fun more ih w r hr => ?_
    rw [proceed_andAlso] at hr
    have follows : ∀ v, proceed more (second v) = some r → rounds? (andAlso second first) v = some r := by
      intro v hv
      rw [rounds?_eq, proceed_andAlso]
      cases hs : second v with
      | error s u => rwa [hs] at hv
      | ok again u =>
        rw [hs] at hv
        cases again with
        | true => exact ih u r hv
        | false => exact hv
    cases hf : first w with
    | error s v => rwa [hf] at hr
    | ok again v =>
      rw [hf] at hr
      cases again with
      | true => exact follows v hr
      | false => exact hr
  have right : ∀ v r, rounds? (andAlso second first) v = some r →
      ∀ w, first w = .ok true v → rounds? (andAlso first second) w = some r := by
    refine rounds?_induction fun more ih v r hr w hw => ?_
    rw [proceed_andAlso] at hr
    rw [rounds?_eq, proceed_andAlso, hw]
    show proceed (rounds? (andAlso first second)) (second v) = some r
    cases hs : second v with
    | error s u => rwa [hs] at hr
    | ok again u =>
      rw [hs] at hr
      cases again with
      | false => exact hr
      | true =>
        have hu : proceed more (first u) = some r := hr
        show rounds? (andAlso first second) u = some r
        cases hf : first u with
        | error s t => rw [hf] at hu; rw [rounds?_eq, proceed_andAlso, hf]; exact hu
        | ok again t =>
          rw [hf] at hu
          cases again with
          | true => exact ih t r hu u hf
          | false => rw [rounds?_eq, proceed_andAlso, hf]; exact hu
  cases hf : first w with
  | error s v => rw [rounds?_eq, proceed_andAlso, hf]; rfl
  | ok again v =>
    cases again with
    | false => rw [rounds?_eq, proceed_andAlso, hf]; rfl
    | true =>
      refine Option.ext fun r => ⟨fun h => ?_, fun h => right v r h w hf⟩
      have h := left w r h
      rwa [hf] at h

/-- The outcome of a loop whose rounds ended: it has no value of its own. -/
def loopValue : Outcome Unit → Outcome Ref
  | .ok _ w => .ok Store.null w
  | .error s w => .error s w

theorem ended_iterate {σ : Type} (step : σ → Eval (σ ⊕ Unit)) (s : σ) (w : World) :
    ended ((do iterate step s; return Store.null : Eval Ref) w) =
      (iterate? step s w).bind fun r => ended (loopValue r) := by
  have hr : iterate step s w = (iterate? step s w).getD (.error .exhausted w) := rfl
  cases h : iterate? step s w with
  | none =>
    rw [h] at hr
    rw [bind_error (show iterate step s w = .error .exhausted w from hr)]
    rfl
  | some r =>
    rw [h] at hr
    cases r with
    | ok u v => rw [bind_ok (show iterate step s w = .ok u v from hr)]; rfl
    | error s' v => rw [bind_error (show iterate step s w = .error s' v from hr)]; rfl

theorem ended_rounds (round : Eval Bool) (w : World) :
    ended ((do rounds round; return Store.null : Eval Ref) w) = (rounds? round w).bind fun r => ended (loopValue r) :=
  ended_iterate _ () w

theorem ended_evaluate (node : Node) (frame : Frame) (w : World) :
    ended (evaluate node frame w) = ended (step evaluate node frame w) := by
  by_cases h : Ends (step evaluate node frame w)
  · rw [evaluate_eq h]
  · by_cases h' : Ends (evaluate node frame w)
    · rw [evaluate_eq_of_ends h']
    · have none_of {r : Outcome Ref} (hr : ¬ Ends r) : ended r = none := by
        cases he : ended r with
        | none => rfl
        | some r' => exact absurd (ended_eq_some.1 he).2 hr
      rw [none_of h, none_of h']

/-- If the step of an evaluation never ends, the evaluation does not either. -/
theorem evaluate_of_exhausted {node : Node} {frame : Frame} {w v : World}
    (h : step evaluate node frame w = .error .exhausted v) : ∃ u, evaluate node frame w = .error .exhausted u := by
  have hn : ¬ Ends (evaluate node frame w) := fun he => by
    rw [evaluate_eq_of_ends he] at he
    exact he v h
  obtain ⟨u, hu⟩ := Classical.not_forall.1 hn
  exact ⟨u, Classical.not_not.1 hu⟩

def test (condition : Node) (frame : Frame) : Eval Bool := do isTrue (← evaluate condition frame)

theorem ended_loop (span : Span) (condition body : Node) (frame : Frame) (w : World) :
    ended (evaluate (.loop span condition body) frame w) =
      (rounds? (andAlso (test condition frame) (loopBody evaluate frame body)) w).bind fun r =>
        ended (loopValue r) := by
  rw [ended_evaluate, ← ended_rounds]
  unfold andAlso test
  simp only [bind_assoc]
  rfl

theorem ended_repetition (span : Span) (body condition : Node) (frame : Frame) (w : World) :
    ended (evaluate (.repetition span body condition) frame w) =
      (rounds? (andAlso (loopBody evaluate frame body) (test condition frame)) w).bind fun r =>
        ended (loopValue r) := by
  rw [ended_evaluate, ← ended_rounds]
  rfl

/-- How it goes on after the body of a loop was run: a loop follows unless the body cuts it or fails. -/
def followedBy (loop : World → Outcome Ref) : Outcome Ref → Outcome Ref
  | .ok _ w => loop w
  | .error .skip w => loop w
  | .error .cut w => .ok Store.null w
  | .error s w => .error s w

theorem ended_followedBy {more : World → Option (Outcome Unit)} {loop : World → Outcome Ref}
    (h : ∀ w, ended (loop w) = (more w).bind fun r => ended (loopValue r)) (frame : Frame) (body : Node) (w : World) :
    ended (followedBy loop (evaluate body frame w)) =
      (proceed more (loopBody evaluate frame body w)).bind fun r => ended (loopValue r) := by
  cases hb : evaluate body frame w with
  | ok r v =>
    have hl : loopBody evaluate frame body w = .ok true v := tryCatch_ok (bind_ok hb)
    rw [hl]
    exact h v
  | error s v =>
    have hl : loopBody evaluate frame body w = _ := tryCatch_error (bind_error hb)
    rw [hl]
    cases s with
    | skip => exact h v
    | _ => rfl

end Utterance.Eval

namespace Utterance

open Eval

/-- A repetition ends as its body does, run once, and then a loop with the same condition and body: an error, a given
value and whatever ends the program pass, a cut ends the repetition without a value, and after all else the loop
follows from where the body left off. Either both end in the same way and in the same world, or neither ends. -/
theorem evaluate_repetition (span span' : Span) (body condition : Node) (frame : Frame) (w : World) :
    ended (evaluate (.repetition span body condition) frame w) =
      ended (followedBy (evaluate (.loop span' condition body) frame) (evaluate body frame w)) := by
  rw [ended_repetition, rounds?_rotate, ended_followedBy (ended_loop span' condition body frame)]

end Utterance

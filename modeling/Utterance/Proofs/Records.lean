import Utterance.Eval.Completion
import Utterance.Grammar.Reading
import Utterance.Grammar.Record
import Utterance.Proofs.Reach

/-!
# Records follow readings and evaluations

A reading that ends has a record, and an evaluation that ends in a program has a completion. The record of a sequence
is made of those of its parts: what `Reading` and `Eval` do with `>>=` is what `register` does, and a failed
`attempt` goes back as many tokens as `tryRegister` says.
-/

namespace Utterance

/-- Every error and every value counts. -/
def always {ν : Type} : ν → Bool := fun _ => true

namespace Grammar

open Record

/-- The node or the diagnostic with which a reading ends, and how many tokens it passed. -/
def Reply.record? : Reply Node × Nat → Option (Record (Node ⊕ Diagnostic))
  | (.ok n _, k) => some { empty with node := some (.inl n), passed := k }
  | (.fail d _, k) => some { empty with error := some (.inr d), passed := k }
  | _ => none

/-- Takes over what a part read, with its node as the result. -/
def Record.extend (r part : Record (Node ⊕ Diagnostic)) : Record (Node ⊕ Diagnostic) :=
  (r.register always part).2.success part.node

namespace Reading

variable {input : Input} {i : Nat} {p : Reading Node} {part : Record (Node ⊕ Diagnostic)}

theorem record?_advance (input : Input) (i : Nat) (p : Reading Node) :
    Reply.record? ((do advance; p).run input i) = (Reply.record? (p.run input (i + 1))).map empty.pass.extend := by
  show Reply.record? ((p.run input (i + 1)).1, 1 + (p.run input (i + 1)).2) = _
  generalize p.run input (i + 1) = r
  obtain ⟨_ | _ | _ | _, k⟩ := r <;> rfl

variable (h : Reply.record? (p.run input i) = some part)
include h

/-- A sequence ends with a part that failed, or goes on where the record of the part says. -/
theorem record?_bind (f : Node → Reading Node) :
    if part.failed always then Reply.record? ((p >>= f).run input i) = some (empty.extend part)
    else ∃ n, part.node = some (.inl n) ∧ Reply.record? ((p >>= f).run input i) =
      (Reply.record? ((f n).run input (i + part.passed))).map (empty.extend part).extend := by
  have hp := p.agrees input i
  have hrun : (p >>= f).run input i = andThen f input (p.run input i) := rfl
  rw [hrun]
  generalize p.run input i = r at h hp ⊢
  obtain ⟨⟨n, j⟩ | _ | _ | _, k⟩ := r <;> cases h
  · obtain rfl : j = i + k := hp
    refine ⟨n, rfl, ?_⟩
    show Reply.record? (((f n).run input (i + k)).1, k + ((f n).run input (i + k)).2) = _
    generalize (f n).run input (i + k) = r
    obtain ⟨_ | _ | _ | _, _⟩ := r <;> simp [Reply.record?, Record.extend, register, success, empty, failed, always]
  · simp [Reply.record?, Record.extend, register, success, empty, failed, always, andThen]

theorem run_attempt : p.attempt.run input i =
    match empty.tryRegister always part with
    | (some (.inl n), r) => (.ok (.ok n) (i + r.passed), r.passed)
    | (_, r) => (.ok (.error r.toGiveBack) (i + r.passed), r.passed) := by
  have hp := p.agrees input i
  unfold attempt
  dsimp only
  generalize p.run input i = r at h hp ⊢
  obtain ⟨⟨n, j⟩ | ⟨d, j⟩ | _ | _, k⟩ := r <;> cases h <;> obtain rfl : j = i + k := hp <;>
    simp [tryRegister, register, empty, failed, always]

end Reading

end Grammar

open Eval Completion

/-- How an evaluation ended, if it ended in a way that a program can go on from. -/
def Outcome.completion? : Outcome Ref → Option (Completion (Ref ⊕ Diagnostic))
  | .ok r _ => some (success (some (.inl r)))
  | .error (.error d) _ => some (failure (some (.inr d)))
  | .error (.give r) _ => some (giving (some (.inl r)))
  | .error .cut _ => some cutting
  | .error .skip _ => some skipping
  | _ => none

/-- A sequence goes on with the value of a part if nothing else is registered, and ends with what is. -/
theorem completion?_bind {x : Eval Ref} {w : World} {part : Completion (Ref ⊕ Diagnostic)}
    (h : Outcome.completion? (x w) = some part) (f : Ref → Eval Ref) :
    if (empty.register part).2.reason always = .inr false then
      ∃ r v, (empty.register part).1 = some (.inl r) ∧ (x >>= f) w = f r v
    else Outcome.completion? ((x >>= f) w) = some (empty.register part).2 := by
  cases hx : x w with
  | ok r v =>
    rw [hx] at h
    cases h
    exact ⟨r, v, rfl, bind_ok hx⟩
  | error s v =>
    rw [bind_error hx]
    rw [hx] at h
    cases s <;> cases h <;> rfl

end Utterance

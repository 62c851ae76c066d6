import Utterance.Proofs.Readings

/-!
# What tokens hold

A token holds a kind and a value (`Mark`). `Input.Shows` says which marks stand in an input from an index on.
-/

namespace Utterance

open List

open Token (Kind)

abbrev Mark := Kind × Scalar

def Token.content (t : Token) : Mark := (t.kind, t.value)

def bare (kind : Kind) : Mark := (kind, .absent)

def word (w : String) : Mark := (.keyword, .text w)

namespace Grammar

variable {input : Input} {i : Nat}

/-- From an index on stand tokens that hold the given things. -/
def Input.Shows (input : Input) : Nat → List Mark → Prop
  | i, [] => i ≤ input.lexemes.size
  | i, m :: ms => (∃ t, input.At i t ∧ t.content = m) ∧ Shows input (i + 1) ms

theorem Input.Shows.length_le {ms : List Mark} (h : input.Shows i ms) : i + ms.length ≤ input.lexemes.size := by
  induction ms generalizing i with
  | nil => exact h
  | cons m ms ih =>
    have := ih h.2
    rw [length_cons]
    omega

theorem Input.shows_append {ms ms' : List Mark} :
    input.Shows i (ms ++ ms') ↔ input.Shows i ms ∧ input.Shows (i + ms.length) ms' := by
  induction ms generalizing i with
  | nil => exact ⟨fun h => ⟨Nat.le_trans (Nat.le_add_right i _) h.length_le, h⟩, And.right⟩
  | cons m ms ih =>
    rw [cons_append, Input.Shows, Input.Shows, ih, length_cons, and_assoc, Nat.add_right_comm, Nat.add_assoc]

theorem Input.shows_ofList (ts us : List Token) :
    (Input.ofList ((ts ++ us).map .token)).Shows ts.length (us.map Token.content) := by
  induction us generalizing ts with
  | nil =>
    show ts.length ≤ ((ts ++ []).map Lexeme.token).toArray.size
    simp
  | cons u us ih =>
    refine ⟨⟨u, ?_, rfl⟩, ?_⟩
    · show ((ts ++ u :: us).map Lexeme.token).toArray[ts.length]?.getD _ = _
      simp
    · have h := ih (ts ++ [u])
      rwa [append_assoc, singleton_append, length_append, length_singleton] at h

end Grammar

end Utterance

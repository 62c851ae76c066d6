import Utterance.Proofs.Bookkeeping

/-!
# The bound on the depth of readings

A reading that does not reach its bound comes to the same with a larger one (`read_mono`), so that readings with two
bounds agree unless one of them reaches its bound (`Rising.agree`): every rule reads more when the parts below it do
(`Composed.rising`).
-/

namespace Utterance.Grammar

open Reading

variable {α β : Type}

/-- Whatever the first reading comes to, the second one comes to, unless the first one reaches its bound. -/
def Below (p q : Reading α) : Prop := ∀ input i, p input i = .exhausted ∨ p input i = q input i

namespace Below

theorem refl (p : Reading α) : Below p p := fun _ _ => .inr rfl

variable {f : α → Reading β}

variable {q : Reading α}

theorem bind {p : Reading α} {g : α → Reading β} (h : Below p q) (hf : ∀ a, Below (f a) (g a)) :
    Below (p >>= f) (q >>= g) := by
  intro input i
  rcases h input i with h | h
  · exact .inl (bind_exhausted h)
  · rw [reply_bind, reply_bind, ← h]
    cases p input i with
    | ok a j => exact hf a input j
    | fail | fault => exact .inr rfl
    | exhausted => exact .inl rfl

theorem after {p : Reading α} {g : α → Reading β} (hf : ∀ a, Below (f a) (g a)) : Below (p >>= f) (p >>= g) :=
  bind (.refl p) hf

theorem before {p : Reading α} (h : Below p q) : Below (p >>= f) (q >>= f) :=
  bind h fun _ => .refl _

theorem ite {c : Prop} {_ : Decidable c} {p p' q' : Reading α} (h : c → Below p q) (h' : ¬c → Below p' q') :
    Below (if c then p else p') (if c then q else q') := by
  split
  · exact h ‹_›
  · exact h' ‹_›

theorem reword {p : Reading α} (h : Below p q) (details : String) : Below (p.reword details) (q.reword details) := by
  intro input i
  rw [reply_reword, reply_reword]
  rcases h input i with h | h
  · rw [h]
    exact .inl rfl
  · rw [h]
    exact .inr rfl

theorem attempt {p q : Reading α} (h : Below p q) : Below p.attempt q.attempt := by
  intro input i
  rw [reply_attempt, reply_attempt]
  rcases h input i with h | h
  · rw [h]
    exact .inl rfl
  · rw [h]
    exact .inr rfl

theorem operatorsAfter {p q : Reading Node} (h : Below p q) (isOperator : Token → Bool) (n : Nat) (left : Node) :
    Below (operatorsAfter p isOperator n left) (operatorsAfter q isOperator n left) := by
  induction n generalizing left with
  | zero => exact refl _
  | succ n ih => exact after fun _ => ite (fun _ => after fun _ => bind h fun _ => ih _) fun _ => refl _

theorem operators {p q : Reading Node} (h : Below p q) (isOperator : Token → Bool) :
    Below (operators p isOperator) (operators q isOperator) :=
  bind h fun _ => after fun _ => operatorsAfter h isOperator _ _

end Below

def Rising (p : Recursion → Reading α) : Prop :=
  ∀ rec rec' : Recursion, (∀ part, Below (rec part) (rec' part)) → Below (p rec) (p rec')

variable {p : Recursion → Reading α}

theorem Composed.monotone {S : Part → Prop} {cur : Option Token} (hp : Composed S cur p) {rec rec' : Recursion}
    (h : ∀ part, Below (rec part) (rec' part)) : Below (p rec) (p rec') := by
  induction hp with
  | part => exact h _
  | pure | refuse | newlines | passing => exact .refl _
  | bind _ _ ih ihf => exact .bind ih ihf
  | bound _ ih | start _ ih | stop _ ih | token _ ih | pass _ _ ih => exact .after ih
  | advance _ _ ih => exact .after fun _ => ih
  | skip _ _ _ ih ih' =>
    refine .after fun b => ?_
    cases b with
    | false => exact ih'
    | true => exact ih
  | operator _ _ ih ih' => exact .after fun _ => .ite (fun _ => .after fun _ => .after fun _ => ih _) fun _ => ih'
  | ite _ _ ih ih' => exact .ite ih ih'
  | reword _ _ ih => exact ih.reword _
  | attempt _ ih => exact ih.attempt

theorem Composed.rising (hp : Composed AnyPart none p) : Rising p := fun _ _ h => hp.monotone h

theorem read_mono {n m : Nat} (hnm : n ≤ m) (part : Part) : Below (read n part) (read m part) := by
  induction n generalizing m part with
  | zero => exact fun _ _ => .inl rfl
  | succ n ih =>
    obtain ⟨m, rfl⟩ : ∃ k, m = k + 1 := ⟨m - 1, by omega⟩
    have h : ∀ part, Below (read n part) (read m part) := ih (by omega)
    cases part with
    | statements => exact .before (Composed.rising (composed_statements trivial) _ _ h)
    | statement => exact .before (Composed.rising (composed_statement trivial) _ _ h)
    | logic => exact Composed.rising (composed_logic trivial) _ _ h
    | factor => exact Composed.rising composed_factor _ _ h

/-- Two bounds that are not reached come to the same. -/
theorem Rising.agree (hp : Rising p) {n m : Nat} {input : Input} {i : Nat} (hn : p (read n) input i ≠ .exhausted)
    (hm : p (read m) input i ≠ .exhausted) :
    p (read n) input i = p (read m) input i := by
  rcases Nat.le_total n m with h | h
  · exact (hp _ _ (read_mono h) input i).resolve_left hn
  · exact ((hp _ _ (read_mono h) input i).resolve_left hm).symm

theorem Rising.operators {p : Recursion → Reading Node} (hp : Rising p) (isOperator : Token → Bool) :
    Rising fun rec => operators (p rec) isOperator := fun _ _ h => (hp _ _ h).operators _

theorem rising_program : Rising program := Composed.rising (composed_program trivial)

/-- What a program is read as with some depth, it is parsed as. -/
theorem parse_of_program {ts : List Token} {n j reversed : Nat} {tree : Node} (heof : ∃ t ∈ ts, t.kind = .eof)
    (h : program (read n) (.ofList (ts.map .token)) 0 = .ok (.ok tree, reversed) j) :
    parse (ts.map .token) = .ok tree := by
  -- the depth of a program is never reached, so that it comes to the same as a depth that is large enough
  have hagree : program (read (depthFor (ts.map Lexeme.token).length)) (.ofList (ts.map .token)) 0 =
      program (read n) (.ofList (ts.map .token)) 0 := by
    refine rising_program.agree ?_ (by rw [h]; exact fun h => by cases h)
    rcases program_ends heof with ⟨r, j, h⟩ | ⟨d, j, h⟩
    · rw [h]
      exact fun h => by cases h
    · rw [h]
      exact fun h => by cases h
  rw [parse, hagree, h]

end Utterance.Grammar

import Utterance.Proofs.Bindings
import Utterance.Proofs.LoopRotation

/-!
# How operators end

An operator ends with a value or with an error, which a program can handle. It is to do so for all operands, but there
are operands for which it ends with a fault instead (`Escapes`): most often where only one type knows the operator,
`%`, `&` and `^`, and the left operand is of another one; further where an integer has too many digits for a text,
where a text would become too long, and where a text value holds nothing. `evaluate_operators` says that these are
all, for operands whose numbers are whole.

The operands are taken apart type by type, as the operators do it, each time down to the scalars; what can fail there
is said by a lemma for each operation of scalars.
-/

namespace Utterance

open Eval Payload

def Scalar.Textual (s : Scalar) : Prop := s = .absent ∨ ∃ t, s = .text t

/-- A number is whole, and a text value holds a text or nothing. -/
def Payload.Integral : Payload → Prop
  | .number s => ∃ n, s = .int n
  | .string s => s.Textual
  | _ => True

def Unprintable (n : Int) : Prop := Fault.digitLimit < (Nat.toDigits 10 n.natAbs).length

/-- What a text value holds cannot be repeated so often: there is nothing, or it is not for a machine to count. -/
def Unrepeatable : Scalar → Int → Prop
  | .text s, n => n < -Scalar.countLimit ∨ Scalar.countLimit ≤ n ∨ Scalar.countLimit ≤ s.length * n
  | _, _ => True

namespace Escapes

def add : Payload → Payload → Prop
  | .number (.int n), .string t => Unprintable n ∨ t = .absent
  | .string t, .number (.int n) => Unprintable n ∨ t = .absent
  | .string t, .string u => t = .absent ∨ u = .absent
  | _, _ => False

def sub (s : Store) : Payload → Payload → Prop
  | .dict k, .number (.int n) => (s.table k).get? (.int n) = none ∧ Unprintable n
  | _, _ => False

def mul : Payload → Payload → Prop
  | .string t, .number (.int n) => Unrepeatable t n
  | _, _ => False

def order : Payload → Payload → Prop
  | .string t, .string u => t = .absent ∨ u = .absent
  | _, _ => False

end Escapes

/-- The operands for which an operator ends with a fault. -/
def Escapes (s : Store) (left right : Payload) : Operator → Prop
  | .add => Escapes.add left right
  | .sub => Escapes.sub s left right
  | .mul => Escapes.mul left right
  | .mod => ∀ a, left ≠ .number a
  | .order _ => Escapes.order left right
  | .intersect | .symmetricDifference => ∀ ms, left ≠ .set ms
  | _ => False

/-- How an operation ends: with a fault if it escapes, and else with a value or with an error that a program can
handle. -/
inductive Concludes (escapes : Prop) : Outcome Ref → Prop
  | value {r v} : ¬ escapes → Concludes escapes (.ok r v)
  | error {d v} : ¬ escapes → Concludes escapes (.error (.error d) v)
  | fault {f v} : escapes → Concludes escapes (.error (.fault f) v)

/-- An operation fails under a condition, and only under it. -/
inductive FailsIff {α : Type} (c : Prop) : Except Fault α → Prop
  | error {f} : c → FailsIff c (.error f)
  | ok {a} : ¬ c → FailsIff c (.ok a)

namespace FailsIff

variable {α β : Type} {c d : Prop}

theorem congr {x : Except Fault α} (h : FailsIff c x) (hd : c ↔ d) : FailsIff d x := propext hd ▸ h

theorem bind {x : Except Fault α} {f : α → Except Fault β} (hx : FailsIff c x) (hf : ∀ a, FailsIff d (f a)) :
    FailsIff (c ∨ d) (x >>= f) := by
  cases hx with
  | error hc => exact .error (.inl hc)
  | @ok a hc => exact (hf a).congr (or_iff_right hc).symm

end FailsIff

namespace Scalar

variable {n : Int} {s t : Scalar}

private theorem printed_fails (n : Int) : FailsIff (Unprintable n) (printed (.int n)) := by
  show FailsIff _ (if Fault.digitLimit < (Nat.toDigits 10 n.natAbs).length then _ else _)
  split
  · next h => exact .error h
  · next h => exact .ok h

private theorem add_fails (hs : s.Textual) (ht : t.Textual) : FailsIff (s = .absent ∨ t = .absent) (s.add t) := by
  rcases hs with rfl | ⟨a, rfl⟩ <;> rcases ht with rfl | ⟨b, rfl⟩
  · exact .error (.inl rfl)
  · exact .error (.inl rfl)
  · exact .error (.inr rfl)
  · exact .ok nofun

private theorem ordered_fails (rel : Order) (hs : s.Textual) (ht : t.Textual) :
    FailsIff (s = .absent ∨ t = .absent) (ordered rel s t) := by
  rcases hs with rfl | ⟨a, rfl⟩ <;> rcases ht with rfl | ⟨b, rfl⟩
  · exact .error (.inl rfl)
  · exact .error (.inl rfl)
  · exact .error (.inr rfl)
  · exact .ok nofun

private theorem mul_fails (n : Int) (hs : s.Textual) : FailsIff (Unrepeatable s n) (s.mul (.int n)) := by
  rcases hs with rfl | ⟨a, rfl⟩
  · exact .error trivial
  · show FailsIff _ (repeatText a n)
    unfold repeatText
    split
    · next h => exact .error (h.imp_right .inl)
    · next h =>
      split
      · next hl => exact .error (.inr (.inr hl))
      · next hl => exact .ok fun | .inl h' => h (.inl h') | .inr (.inl h') => h (.inr h') | .inr (.inr h') => hl h'

private theorem textual_text (a : String) : (text a).Textual := .inr ⟨a, rfl⟩

private theorem printed_add_fails (n : Int) (ht : t.Textual) :
    FailsIff (Unprintable n ∨ t = .absent) (do add (.text (← printed (.int n))) t) :=
  (printed_fails n).bind fun a => (add_fails (textual_text a) ht).congr (or_iff_right nofun)

private theorem add_printed_fails (n : Int) (hs : s.Textual) :
    FailsIff (Unprintable n ∨ s = .absent) (do s.add (.text (← printed (.int n)))) :=
  (printed_fails n).bind fun a => (add_fails hs (textual_text a)).congr (or_iff_left nofun)

private theorem missingKey_fails (n : Int) : FailsIff (Unprintable n) (missingKey (.int n)) :=
  ((printed_fails n).bind (d := False) fun _ => .ok id).congr (or_iff_left id)

end Scalar

namespace Concludes

variable {α : Type} {escapes : Prop}

theorem lifted {x : Except Fault α} (h : FailsIff escapes x) (left : Cell) (g : α → Payload) (w : World) :
    Concludes escapes ((do resultOf left (g (← lift x))) w) := by
  cases h with
  | error hc => exact .fault hc
  | ok hc => exact .value hc

theorem congr {escapes' : Prop} {x : Outcome Ref} (h : Concludes escapes x) (he : escapes ↔ escapes') :
    Concludes escapes' x :=
  propext he ▸ h

end Concludes

section

variable {left right : Cell} {w : World} {r : Ref}

/-- A value appended to a text: whatever fails is an error. -/
theorem appendForm_concludes (s : Scalar) (form : Option (Except Fault String)) :
    Concludes False (appendForm left right s form w) := by
  unfold appendForm
  cases form.bind _ with
  | some t => exact .value id
  | none => exact .error id

theorem add_pair (n : Nat) (es : Array Ref) (hl : left.payload = .dict n) (hr : right.payload = .list es) :
    Concludes False (add left right r w) := by
  unfold add
  rw [hl, hr]
  dsimp only
  split
  · rw [bind_ok (show payload (es.getD 0 0) w = .ok _ w from rfl)]
    cases (w.cell (es.getD 0 0)).payload.key? with
    | some key => exact .value id
    | none => exact .error id
  · exact .error id

private theorem add_concludes (hl : left.payload.Integral) (hr : right.payload.Integral) :
    Concludes (Escapes w.store left.payload right.payload .add) (add left right r w) := by
  obtain ⟨p, start, stop, frame⟩ := left
  obtain ⟨q, start', stop', frame'⟩ := right
  cases p with
  | number a =>
    obtain ⟨n, rfl⟩ := hl
    cases q with
    | number b =>
      obtain ⟨m, rfl⟩ := hr
      exact .value id
    | string t => exact .lifted (Scalar.printed_add_fails n hr) _ string w
    | _ => exact .error id
  | string s =>
    cases q with
    | number b =>
      obtain ⟨m, rfl⟩ := hr
      exact .lifted (Scalar.add_printed_fails m hl) _ string w
    | string t => exact .lifted (Scalar.add_fails hl hr) _ string w
    | _ => exact appendForm_concludes s (w.store.printed .quoted r)
  | list es => exact .value id
  | tuple es => exact .error id
  | set ms =>
    cases q with
    | set ms' => exact .value id
    | _ => exact .error id
  | dict n =>
    cases q with
    | list es => exact add_pair n es rfl rfl
    | _ => exact .error id
  | _ => exact .error id

theorem sub_key (n : Nat) (hl : left.payload = .dict n) (hr : right.payload.Integral) :
    Concludes (Escapes.sub w.store left.payload right.payload) (sub left right w) := by
  -- the key is there, or the report of the missing key can be made, or not
  have key (k : Scalar) {c : Prop} (hc : FailsIff c (missingKey k)) :
      Concludes ((w.store.table n).get? k = none ∧ c)
        ((if ((w.store.table n).get? k).isSome then dictResult left ((w.store.table n).erase k)
          else do errorOn left right (← lift (missingKey k))) w) := by
    split
    · next h => exact .value fun hn => by simp [hn.1] at h
    · next h =>
      have hnone : (w.store.table n).get? k = none := by simpa using h
      cases hm : missingKey k with
      | error f =>
        rw [hm] at hc
        cases hc with | error hc => exact .fault ⟨hnone, hc⟩
      | ok text =>
        rw [hm] at hc
        cases hc with | ok hc => exact .error fun h => hc h.2
  obtain ⟨p, start, stop, frame⟩ := left
  obtain ⟨q, start', stop', frame'⟩ := right
  obtain rfl : p = .dict n := hl
  cases q with
  | number b =>
    obtain ⟨m, rfl⟩ := hr
    exact key (.int m) (Scalar.missingKey_fails m)
  | string t =>
    rcases hr with rfl | ⟨t, rfl⟩
    · exact .error id
    · exact (key (.text t) (c := False) (.ok id)).congr (by simp [Escapes.sub])
  | _ => exact .error id

section

variable (hl : left.payload.Integral) (hr : right.payload.Integral)
include hl hr

private theorem sub_concludes : Concludes (Escapes w.store left.payload right.payload .sub) (sub left right w) := by
  obtain ⟨p, start, stop, frame⟩ := left
  cases p with
  | dict n => exact sub_key n rfl hr
  | number a =>
    obtain ⟨n, rfl⟩ := hl
    obtain ⟨q, start', stop', frame'⟩ := right
    cases q with
    | number b =>
      obtain ⟨m, rfl⟩ := hr
      exact .value id
    | _ => exact .error id
  | list es =>
    obtain ⟨q, start', stop', frame'⟩ := right
    cases q with
    | number b =>
      unfold sub
      dsimp only
      cases scalarIndex? es.size b with
      | some k => exact .value id
      | none => exact .error id
    | _ => exact .error id
  | tuple es => exact .error id
  | set ms =>
    obtain ⟨q, start', stop', frame'⟩ := right
    cases q with
    | set ms' => exact .value id
    | _ => exact .error id
  | _ => exact .error id

private theorem mul_concludes : Concludes (Escapes w.store left.payload right.payload .mul) (mul left right w) := by
  obtain ⟨p, start, stop, frame⟩ := left
  obtain ⟨q, start', stop', frame'⟩ := right
  cases p with
  | number a =>
    obtain ⟨n, rfl⟩ := hl
    cases q with
    | number b =>
      obtain ⟨m, rfl⟩ := hr
      exact .value id
    | _ => exact .error id
  | string s =>
    cases q with
    | number b =>
      obtain ⟨m, rfl⟩ := hr
      exact .lifted (Scalar.mul_fails m hl) _ string w
    | _ => exact .error id
  | list es =>
    cases q with
    | list es' => exact .value id
    | _ => exact .error id
  | tuple es =>
    cases q with
    | tuple es' => exact .value id
    | _ => exact .error id
  | _ => exact .error id

private theorem mod_concludes : Concludes (Escapes w.store left.payload right.payload .mod) (mod left right w) := by
  obtain ⟨p, start, stop, frame⟩ := left
  cases p with
  | number a =>
    have hno : ¬ ∀ b, number a ≠ .number b := fun h => h a rfl
    obtain ⟨n, rfl⟩ := hl
    obtain ⟨q, start', stop', frame'⟩ := right
    cases q with
    | number b =>
      obtain ⟨m, rfl⟩ := hr
      unfold mod divide
      dsimp only
      split
      · exact .error hno
      · exact .value hno
    | _ => exact .error hno
  | _ => exact .fault nofun

end

private theorem eq_concludes : Concludes (Escapes w.store left.payload right.payload .eq) (eq left right w) := by
  unfold eq
  cases left.payload.equals? right.payload with
  | some b => exact .value id
  | none => exact .error id

private theorem ne_concludes : Concludes (Escapes w.store left.payload right.payload .ne) (ne left right w) := by
  unfold ne
  cases left.payload.equals? right.payload with
  | none => cases left.payload <;> exact .error id
  | some b =>
    cases left.payload with
    | found m => exact .error id
    | _ => exact .value id

private theorem order_concludes (rel : Scalar.Order) (hl : left.payload.Integral) (hr : right.payload.Integral) :
    Concludes (Escapes w.store left.payload right.payload (.order rel)) (order rel left right w) := by
  obtain ⟨p, start, stop, frame⟩ := left
  obtain ⟨q, start', stop', frame'⟩ := right
  cases p with
  | number a =>
    obtain ⟨n, rfl⟩ := hl
    cases q with
    | number b =>
      obtain ⟨m, rfl⟩ := hr
      exact .value id
    | _ => exact .error id
  | string s =>
    cases q with
    | string t => exact .lifted (Scalar.ordered_fails rel hl hr) _ truthNumber w
    | _ => exact .error id
  | _ => exact .error id

private theorem onSets_concludes (f : Members → Members → Members) (property : String) :
    Concludes (∀ ms, left.payload ≠ .set ms) (onSets f property left right w) := by
  unfold onSets
  cases left.payload with
  | set ms =>
    cases right.payload with
    | set ms' => exact .value fun h => h ms rfl
    | _ => exact .error fun h => h ms rfl
  | _ => exact .fault nofun

private theorem choose_concludes (takeFirst : Scalar → Bool) (hl : left.payload.Integral)
    (hr : right.payload.Integral) :
    Concludes False (choose takeFirst left right w) := by
  obtain ⟨p, start, stop, frame⟩ := left
  obtain ⟨q, start', stop', frame'⟩ := right
  cases p with
  | number a =>
    obtain ⟨n, rfl⟩ := hl
    cases q with
    | number b =>
      obtain ⟨m, rfl⟩ := hr
      unfold choose
      dsimp only
      cases takeFirst (.int n) <;> exact .value id
    | _ => exact .error id
  | _ => exact .error id

private theorem binary_concludes {o : Operator} {l : Ref} (ho : o ≠ .div) (hl : (w.cell l).payload.Integral)
    (hr : (w.cell r).payload.Integral) :
    Concludes (Escapes w.store (w.cell l).payload (w.cell r).payload o) (binary o l r w) := by
  cases o with
  | add => exact add_concludes hl hr
  | sub => exact sub_concludes hl hr
  | mul => exact mul_concludes hl hr
  | div => exact absurd rfl ho
  | mod => exact mod_concludes hl hr
  | eq => exact eq_concludes
  | ne => exact ne_concludes
  | order rel => exact order_concludes rel hl hr
  | intersect | symmetricDifference => exact onSets_concludes _ _
  | and | or => exact choose_concludes _ hl hr

private theorem mul_minusOne_iff {p : Payload} (hp : p.Integral) :
    Escapes.mul p (.number (.int (-1))) ↔ p = .string .absent := by
  cases p with
  | string s =>
    rcases hp with rfl | ⟨t, rfl⟩
    · exact ⟨fun _ => rfl, fun _ => trivial⟩
    · have hlimit : (1 : Int) ≤ Scalar.countLimit := by decide
      refine ⟨fun h => ?_, nofun⟩
      rcases h with h | h | h <;> omega
  | _ => exact ⟨False.elim, nofun⟩

private theorem negation_concludes : Concludes False (negation r w) := by
  unfold negation
  rw [bind_ok (show cell r w = .ok _ w from rfl)]
  cases (w.cell r).payload with
  | number s => exact .value id
  | _ => exact .error id

private theorem unary_of_ne {op : Token} (h : op.kind ≠ .minus) :
    unary op r = if op.isKeyword "not" then negation r else pure r := by
  unfold unary
  split
  · next hk => exact absurd hk h
  · rfl

private theorem unary_concludes (op : Token) (hr : (w.cell r).payload.Integral) :
    Concludes (op.kind = .minus ∧ (w.cell r).payload = .string .absent) (unary op r w) := by
  by_cases hminus : op.kind = .minus
  · have hmul : Concludes _ (negate r w) := @mul_concludes (w.cell r) _ w hr ⟨-1, rfl⟩
    unfold unary
    rw [hminus]
    exact hmul.congr ((mul_minusOne_iff hr).trans (and_iff_right rfl).symm)
  · have hno : False ↔ op.kind = .minus ∧ (w.cell r).payload = .string .absent :=
      ⟨False.elim, fun h => hminus h.1⟩
    rw [unary_of_ne hminus]
    split
    · exact negation_concludes.congr hno
    · exact .value hno.2

end

namespace Concludes

variable {escapes : Prop}

theorem placed {x : Eval Ref} {w : World} (h : Concludes escapes (x w)) (span : Span) :
    Concludes escapes ((do place (← x) span) w) := by
  cases hx : x w with
  | ok r v =>
    rw [hx] at h
    rw [bind_ok hx]
    cases h with | value h => exact .value h
  | error s v =>
    rw [hx] at h
    rw [bind_error hx]
    cases h with
    | error h => exact .error h
    | fault h => exact .fault h

private theorem of_step {node : Node} {frame : Frame} {w : World} (h : Concludes escapes (step evaluate node frame w)) :
    Concludes escapes (evaluate node frame w) := by
  rwa [evaluate_eq fun v hv => by rw [hv] at h; cases h]

end Concludes

/-- Operators between and in front of values whose numbers are whole end with a value or with an error that a program
can handle, but for the operands for which they escape, and then they end with a fault. -/
theorem evaluate_operators (span : Span) (op : Token) (frame : Frame) (w : World) :
    (∀ (left right : Node) (w₁ w₂ : World) (l r : Ref) (o : Operator), Operator.ofToken? op = some o → o ≠ .div →
      evaluate left frame w = .ok l w₁ → evaluate right frame w₁ = .ok r w₂ →
      (w₂.cell l).payload.Integral → (w₂.cell r).payload.Integral →
      Concludes (Escapes w₂.store (w₂.cell l).payload (w₂.cell r).payload o)
        (evaluate (.binary span left op right) frame w)) ∧
    ∀ (operand : Node) (w₁ : World) (r : Ref), evaluate operand frame w = .ok r w₁ →
      (w₁.cell r).payload.Integral →
      Concludes (op.kind = .minus ∧ (w₁.cell r).payload = .string .absent)
        (evaluate (.unary span op operand) frame w) := by
  constructor
  · intro left right w₁ w₂ l r o hop ho hleft hright hl hr
    have hstep : step evaluate (.binary span left op right) frame w = (do place (← binary o l r) span) w₂ := by
      refine (bind_ok hleft).trans ((bind_ok hright).trans ?_)
      rw [hop]
    refine .of_step ?_
    rw [hstep]
    exact (binary_concludes ho hl hr).placed span
  · intro operand w₁ r hoperand hr
    have hstep : step evaluate (.unary span op operand) frame w = (do place (← unary op r) span) w₁ := bind_ok hoperand
    refine .of_step ?_
    rw [hstep]
    exact (unary_concludes op hr).placed span

namespace OperatorEndings

open Sketch

def mod : Token := mark .mod

def minus : Token := mark .minus

def world : World := .small [integer 0, integer 0, integer 1] []

def seven : World := after (evaluateTo 1 (number 7) top world)

def zero : World := after (evaluateTo 1 (number 0) top seven)

/-- `7 % 0` and `-"a"` do not escape. -/
theorem evaluate_operators_zero :
    Concludes (∀ a, number (.int 7) ≠ .number a)
      (evaluate (.binary default (number 7) mod (number 0)) top world) ∧
    Concludes (minus.kind = .minus ∧ string (.text "a") = .string .absent)
      (evaluate (.unary default minus (string "a")) top world) := by
  have happrox := evaluateTo_approximates 1
  have hleft : evaluate (number 7) top world = .ok 3 seven := (happrox _ _).eq_of_ok rfl
  have hright : evaluate (number 0) top seven = .ok 4 zero := (happrox _ _).eq_of_ok rfl
  have hseven : (zero.cell 3).payload.Integral := ⟨7, rfl⟩
  have hzero : (zero.cell 4).payload.Integral := ⟨0, rfl⟩
  have hstring : evaluate (string "a") top world = .ok 3 (after (evaluateTo 1 (string "a") top world)) :=
    (happrox _ _).eq_of_ok rfl
  exact ⟨(evaluate_operators default mod top world).1 _ _ _ _ _ _ .mod rfl nofun hleft hright hseven hzero,
    (evaluate_operators default minus top world).2 _ _ _ hstring (.inr ⟨"a", rfl⟩)⟩

/-- `"a" % 2` ends with a fault: texts do not know the operator. -/
theorem mod_escapes : ∃ v, evaluate (.binary default (string "a") mod (number 2)) top world =
    .error (.fault (.noAttribute "String" "modded_by")) v :=
  ⟨_, (evaluateTo_approximates 2 _ _).eq_of_error rfl nofun⟩

end OperatorEndings

end Utterance

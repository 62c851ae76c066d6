import Utterance.Proofs.Bindings
import Utterance.Proofs.LoopRotation

/-!
# A switch is a chain of equality tests

A conditional tests its conditions one after the other and runs the body of the first one that holds (`chain`). A
switch evaluates its subject once, and then it is such a chain as well, of tests whether the subject equals the value
of a case; `evaluate_switch` says so of all switches. But a switch does not look whether the two can be compared:
where they cannot, `==` ends with an error, which a program can handle, and the switch ends with a fault (`Clash`).
-/

namespace Utterance

open Eval

variable {node : Node} {x y : Outcome Ref}

namespace Eval

/-- Runs the first body whose test holds, or else what remains. -/
def chain (frame : Frame) (rest : Option (Node × Bool)) : List (Eval Bool × Node × Bool) → Eval Ref
  | [] => otherwise evaluate frame rest
  | (holds, body, isBlock) :: cases => do
    if ← holds then caseBody evaluate frame body isBlock else chain frame rest cases

/-- The tests of a conditional: does a condition hold? -/
def conditions (frame : Frame) (cases : List Case) : List (Eval Bool × Node × Bool) :=
  cases.map fun c => (test c.1 frame, c.2)

/-- Whether `==` holds between a value and that of an expression. -/
def equals (l : Ref) (value : Node) (frame : Frame) : Eval Bool := do isTrue (← binary .eq l (← evaluate value frame))

/-- The tests of a switch: does the subject equal the value of a case? -/
def equalities (frame : Frame) (cases : List Case) (subject : Ref) : List (Eval Bool × Node × Bool) :=
  cases.map fun c => (equals subject c.1 frame, c.2)

variable {frame : Frame} {w v : World} {s l r : Ref}

theorem conditional_eq_chain (frame : Frame) (rest : Option (Node × Bool)) (cases : List Case) :
    conditional evaluate frame rest cases = chain frame rest (conditions frame cases) := by
  induction cases with
  | nil => rfl
  | cons c cases ih =>
    show (do
      let t ← evaluate c.1 frame
      if ← isTrue t then caseBody evaluate frame c.2.1 c.2.2 else conditional evaluate frame rest cases) = _
    rw [ih]
    exact (bind_assoc ..).symm

def Incomparable (w : World) (l r : Ref) : Prop := (w.cell l).payload.equals? (w.cell r).payload = none

/-- What is made of two values that are compared: a new truth value, or nothing and an error if they cannot be
compared. -/
inductive Compares (w : World) (l r : Ref) : Outcome (Option Ref) → Outcome Ref → Prop
  | known {b c} : ¬ Incomparable w l r → c.payload = truthNumber b →
    Compares w l r (.ok (some w.size) (w.alloc c)) (.ok w.size (w.alloc c))
  | unknown : Incomparable w l r → Compares w l r (.ok none w) (illegal (w.cell l) (w.cell r) w)

theorem equality?_compares (w : World) (l r : Ref) : Compares w l r (equality? l r w) (binary .eq l r w) := by
  have hleft : cell l w = .ok (w.cell l) w := rfl
  have hright : cell r w = .ok (w.cell r) w := rfl
  unfold equality? binary
  rw [bind_ok hleft, bind_ok hleft, bind_ok hright, bind_ok hright]
  unfold eq
  cases h : (w.cell l).payload.equals? (w.cell r).payload with
  | none => exact .unknown h
  | some b =>
    have hknown : ¬ Incomparable w l r := by simp [Incomparable, h]
    exact .known (c := ⟨truthNumber b, none, none, (w.cell l).frame⟩) hknown rfl

theorem isTrue_alloc {b : Bool} {c : Cell} (h : c.payload = truthNumber b) :
    isTrue w.size (w.alloc c) = .ok b (w.alloc c) := by
  have hpayload : payload w.size (w.alloc c) = .ok (truthNumber b) (w.alloc c) := by
    show EStateM.Result.ok ((w.alloc c).cell w.size).payload _ = _
    rw [World.cell_alloc, if_pos rfl, h]
  refine (bind_ok hpayload).trans ?_
  cases b <;> rfl

/-- A subject equals none of the values of the first cases and cannot be compared with that of the next one: the
switch ends with a fault where the chain of tests ends with an error, and both leave what there is after the value was
evaluated. -/
inductive Clash (frame : Frame) (s : Ref) : List Case → World → Outcome Ref → Outcome Ref → Prop
  | first {c cases w r u} : evaluate c.1 frame w = .ok r u → Incomparable u s r → Clash frame s (c :: cases) w
    (.error (.fault (.noAttribute "NoneType" "is_true")) u) (illegal (u.cell s) (u.cell r) u)
  | later {c cases w v x y} : equals s c.1 frame w = .ok false v → Clash frame s cases v x y →
    Clash frame s (c :: cases) w x y

theorem Clash.faults {cases : List Case} (h : Clash frame s cases w x y) :
    ∃ u, x = .error (.fault (.noAttribute "NoneType" "is_true")) u := by
  induction h with
  | first => exact ⟨_, rfl⟩
  | later _ _ ih => exact ih

theorem Clash.ends {cases : List Case} (h : Clash frame s cases w x y) : Ends x := by
  obtain ⟨u, rfl⟩ := h.faults
  exact ends_error.2 nofun

/-- What a switch does with its first case, beside what the test of that case decides. -/
inductive Decides (frame : Frame) (s : Ref) (rest : Option (Node × Bool)) (c : Case) (cases : List Case) (w : World) :
    Outcome Bool → Outcome Ref → Prop
  | known {b v} : Decides frame s rest c cases w (.ok b v)
    ((if b then caseBody evaluate frame c.2.1 c.2.2 else switch evaluate frame s rest cases) v)
  | failed {e v} : Decides frame s rest c cases w (.error e v) (.error e v)
  | clash {r u} : evaluate c.1 frame w = .ok r u → Incomparable u s r → Decides frame s rest c cases w
    (illegal (u.cell s) (u.cell r) u) (.error (.fault (.noAttribute "NoneType" "is_true")) u)

theorem switch_decides (frame : Frame) (s : Ref) (rest : Option (Node × Bool)) (c : Case) (cases : List Case)
    (w : World) : Decides frame s rest c cases w (equals s c.1 frame w)
      (switch evaluate frame s rest (c :: cases) w) := by
  cases hvalue : evaluate c.1 frame w with
  | error e u =>
    rw [show equals s c.1 frame w = .error e u from bind_error hvalue,
      show switch evaluate frame s rest (c :: cases) w = .error e u from bind_error hvalue]
    exact .failed
  | ok r u =>
    have hequals : equals s c.1 frame w = (do isTrue (← binary .eq s r)) u := bind_ok hvalue
    have hcompares := equality?_compares u s r
    generalize hx : equality? s r u = x, hy : binary .eq s r u = y at hcompares
    cases hcompares with
    | @known b a _ ha =>
      rw [hequals, bind_ok hy, isTrue_alloc ha, show switch evaluate frame s rest (c :: cases) w = _ from
        (bind_ok hvalue).trans ((bind_ok hx).trans (bind_ok (isTrue_alloc ha)))]
      exact .known
    | unknown hinc =>
      rw [hequals, bind_error hy, show switch evaluate frame s rest (c :: cases) w = _ from
        (bind_ok hvalue).trans (bind_ok hx)]
      exact .clash hvalue hinc

/-- A switch is the chain of its equality tests, unless there is a clash. -/
theorem switch_eq_chain_or (frame : Frame) (rest : Option (Node × Bool)) (cases : List Case) (s : Ref) (w : World) :
    switch evaluate frame s rest cases w = chain frame rest (equalities frame cases s) w ∨
      Clash frame s cases w (switch evaluate frame s rest cases w)
        (chain frame rest (equalities frame cases s) w) := by
  -- as long as the subject can be compared, both sides make the same truth values and go on in the same world
  induction cases generalizing w with
  | nil => exact .inl rfl
  | cons c cases ih =>
    have hdecides := switch_decides frame s rest c cases w
    generalize hx : equals s c.1 frame w = x, switch evaluate frame s rest (c :: cases) w = y at hdecides
    cases hdecides with
    | @known b v =>
      rw [show chain frame rest (equalities frame (c :: cases) s) w = _ from bind_ok hx]
      cases b with
      | true => exact .inl rfl
      | false => exact (ih v).imp_right (.later hx)
    | failed => exact .inl (bind_error hx).symm
    | clash hvalue hinc =>
      rw [show chain frame rest (equalities frame (c :: cases) s) w = _ from bind_error hx]
      exact .inr (.first hvalue hinc)

theorem Clash.eq {cases : List Case} (rest : Option (Node × Bool)) (h : Clash frame s cases w x y) :
    switch evaluate frame s rest cases w = x ∧ chain frame rest (equalities frame cases s) w = y := by
  induction h with
  | @first c cases w r u hvalue hinc =>
    have hequals : equals s c.1 frame w = (do isTrue (← binary .eq s r)) u := bind_ok hvalue
    have hcompares := equality?_compares u s r
    generalize hx : equality? s r u = x, hy : binary .eq s r u = y at hcompares
    cases hcompares with
    | known hknown => exact absurd hinc hknown
    | unknown => exact ⟨(bind_ok hvalue).trans (bind_ok hx), bind_error (hequals.trans (bind_error hy))⟩
  | @later c cases w _ _ _ hequals _ ih =>
    refine ⟨?_, (bind_ok hequals).trans ih.2⟩
    have hdecides := switch_decides frame s rest c cases w
    rw [hequals] at hdecides
    rw [← ih.1]
    generalize switch evaluate frame s rest (c :: cases) w = y at hdecides ⊢
    cases hdecides
    rfl

/-- What `==` decides as a condition, beside what it decides of two values: the same, but that the truth value, which
is the last one made, has its place in the source. -/
inductive SameTruth (span : Span) : Outcome Bool → Outcome Bool → Prop
  | ok {b : Bool} {w : World} {c : Cell} : SameTruth span (.ok b (w.alloc c))
    (.ok b (w.alloc { c with start := some span.start, stop := some span.stop }))
  | error {e : Signal} {w : World} : SameTruth span (.error e w) (.error e w)
  | endless {w v : World} : SameTruth span (.error .exhausted w) (.error .exhausted v)

theorem place_alloc (w : World) (c : Cell) (span : Span) : place w.size span (w.alloc c) =
    .ok w.size (w.alloc { c with start := some span.start, stop := some span.stop }) :=
  congrArg (EStateM.Result.ok _) (World.modifyCell_alloc w c _)

theorem test_of_step (h : step evaluate node frame w = .ok r v) : test node frame w = isTrue r v :=
  bind_ok (evaluate_ok h)

theorem SameTruth.of_error (span : Span) {e : Signal} (h : step evaluate node frame w = .error e v) :
    SameTruth span (.error e v) (test node frame w) := by
  by_cases he : e = .exhausted
  · subst he
    obtain ⟨u, hu⟩ := evaluate_of_exhausted h
    rw [show test node frame w = .error .exhausted u from bind_error hu]
    exact .endless
  · rw [show test node frame w = .error e v from bind_error (evaluate_of_step h (ends_error.2 he))]
    exact .error

theorem equals_sameTruth (span : Span) {op : Token} {left : Node} (hop : Operator.ofToken? op = some .eq)
    (hleft : evaluate left frame w = .ok l v) (value : Node) :
    SameTruth span (equals l value frame v) (test (.binary span left op value) frame w) := by
  have hstep : step evaluate (.binary span left op value) frame w =
      (do place (← binary .eq l (← evaluate value frame)) span) v := by
    refine (bind_ok hleft).trans ?_
    rw [hop]
  cases hvalue : evaluate value frame v with
  | error e u =>
    rw [show equals l value frame v = .error e u from bind_error hvalue]
    exact .of_error span (hstep.trans (bind_error hvalue))
  | ok r u =>
    rw [show equals l value frame v = (do isTrue (← binary .eq l r)) u from bind_ok hvalue]
    rw [bind_ok hvalue] at hstep
    have hcompares := equality?_compares u l r
    generalize equality? l r u = x, hy : binary .eq l r u = y at hcompares
    cases hcompares with
    | @known b a _ ha =>
      rw [bind_ok hy, isTrue_alloc ha]
      have hplaced := hstep.trans ((bind_ok hy).trans (place_alloc u a span))
      have htest : test (.binary span left op value) frame w =
          .ok b (u.alloc { a with start := some span.start, stop := some span.stop }) :=
        (test_of_step hplaced).trans (isTrue_alloc ha)
      rw [htest]
      exact .ok
    | unknown =>
      rw [bind_error hy]
      exact .of_error span (hstep.trans (bind_error hy))

end Eval

/-- A switch evaluates its subject and then does what a chain of equality tests does, in the order of its cases: it
runs the same body, leaves the same and ends alike; but where the chain ends with an error because the subject cannot
be compared with a value, the switch ends with a fault, and it always does where such a value is reached. A
conditional is the chain of its conditions, and `==` as a condition is the test whether two values are equal. -/
theorem evaluate_switch (span : Span) (subject : Node) (cases : List Case) (rest : Option (Node × Bool))
    (frame : Frame) (w : World) :
    (ended (evaluate (.switch span subject cases rest) frame w) =
        ended ((do chain frame rest (equalities frame cases (← evaluate subject frame))) w) ∨
      ∃ s v, evaluate subject frame w = .ok s v ∧
        Clash frame s cases v (evaluate (.switch span subject cases rest) frame w)
          ((do chain frame rest (equalities frame cases (← evaluate subject frame))) w)) ∧
    (∀ s v x y, evaluate subject frame w = .ok s v → Clash frame s cases v x y →
      evaluate (.switch span subject cases rest) frame w = x ∧
        (do chain frame rest (equalities frame cases (← evaluate subject frame))) w = y) ∧
    ended (evaluate (.conditional span cases rest) frame w) = ended (chain frame rest (conditions frame cases) w) ∧
    ∀ (op : Token) (left value : Node) (l : Ref) (v : World), Operator.ofToken? op = some .eq →
      evaluate left frame w = .ok l v →
      SameTruth span (equals l value frame v) (test (.binary span left op value) frame w) := by
  refine ⟨?_, ?_, ?_, fun op left value l v hop hleft => equals_sameTruth span hop hleft value⟩
  · cases hsubject : evaluate subject frame w with
    | error e v =>
      refine .inl ?_
      rw [ended_evaluate, bind_error hsubject]
      exact congrArg ended (bind_error hsubject)
    | ok s v =>
      have hstep : step evaluate (.switch span subject cases rest) frame w = switch evaluate frame s rest cases v :=
        bind_ok hsubject
      rw [bind_ok hsubject]
      rcases switch_eq_chain_or frame rest cases s v with heq | hclash
      · exact .inl (by rw [ended_evaluate, hstep, heq])
      · refine .inr ⟨s, v, rfl, ?_⟩
        rw [evaluate_of_step hstep hclash.ends]
        exact hclash
  · intro s v x y hsubject hclash
    obtain ⟨hswitch, hchain⟩ := hclash.eq rest
    have hstep : step evaluate (.switch span subject cases rest) frame w = x := (bind_ok hsubject).trans hswitch
    exact ⟨evaluate_of_step hstep hclash.ends, (bind_ok hsubject).trans hchain⟩
  · rw [ended_evaluate, ← conditional_eq_chain]
    rfl

namespace SwitchChain

open Sketch

def equal : Token := mark .ee

def world : World := .small [integer 0, integer 0, integer 1] []

def choices : List Case := [(number 1, string "one", false), (number 2, string "two", false)]

def two : World := after (evaluateTo 1 (number 2) top world)

def clashing : List Case := [(string "a", number 2, false)]

def one : World := after (evaluateTo 1 (number 1) top world)

def letter : World := after (evaluateTo 1 (string "a") top one)

theorem evaluate_one : evaluate (number 1) top world = .ok 3 one := (evaluateTo_approximates 1 _ _).eq_of_ok rfl

theorem evaluate_letter : evaluate (string "a") top one = .ok 4 letter := (evaluateTo_approximates 1 _ _).eq_of_ok rfl

/-- `2` is the second of two cases, in a switch and in a chain; `1` clashes with `"a"`; and `2 == 1` decides as a test
does. -/
theorem evaluate_switch_two :
    ended (evaluate (.switch default (number 2) choices none) top world) =
      ended ((do chain top none (equalities top choices (← evaluate (number 2) top))) world) ∧
    evaluate (.switch default (number 1) clashing none) top world =
      .error (.fault (.noAttribute "NoneType" "is_true")) letter ∧
    SameTruth default (equals 3 (number 1) top two) (test (.binary default (number 2) equal (number 1)) top world) := by
  obtain ⟨hswitch, -, -, hequal⟩ := evaluate_switch default (number 2) choices none top world
  have htwo : evaluate (number 2) top world = .ok 3 two := (evaluateTo_approximates 1 _ _).eq_of_ok rfl
  obtain ⟨-, hclash, -⟩ := evaluate_switch default (number 1) clashing none top world
  obtain ⟨hfault, -⟩ := hclash 3 one _ _ evaluate_one (.first evaluate_letter rfl)
  refine ⟨?_, hfault, hequal equal (number 2) (number 1) 3 two rfl htwo⟩
  have hvalue : evaluate (.switch default (number 2) choices none) top world =
      .ok 8 (after (evaluateTo 2 (.switch default (number 2) choices none) top world)) :=
    (evaluateTo_approximates 2 _ _).eq_of_ok rfl
  rcases hswitch with heq | ⟨s, v, -, hclash⟩
  · exact heq
  · obtain ⟨u, hu⟩ := hclash.faults
    cases hvalue.symm.trans hu

/-- A switch over `1` with a case for `"a"` ends with a fault, and `1 == "a"` with an error. -/
theorem switch_escapes :
    evaluate (.switch default (number 1) clashing none) top world =
      .error (.fault (.noAttribute "NoneType" "is_true")) letter ∧
    (do chain top none (equalities top clashing (← evaluate (number 1) top))) world =
      (illegal (letter.cell 3) (letter.cell 4) : Eval Ref) letter := by
  obtain ⟨hswitch, hchain⟩ := Clash.eq none (.first evaluate_letter rfl : Clash top 3 clashing one _ _)
  exact ⟨evaluate_of_step ((bind_ok evaluate_one).trans hswitch) (ends_error.2 nofun),
    (bind_ok evaluate_one).trans hchain⟩

end SwitchChain

end Utterance

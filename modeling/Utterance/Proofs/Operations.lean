import Utterance.Proofs.Collections

/-!
# Operations on values

A program applies an operation to values by writing a node for it: a place in a collection, an operator between two
values, or a call of a built-in function (`Applies`). The operands may be any nodes; when they have been evaluated,
the operation is performed on their values, in the world that they left. So what an operation does with values in a
world tells what the evaluation of such a node comes to (`Performs`), and the lemmas here lead from the one to the
other: for places (`Performs.place`), operators (`Applies.evaluate_operator`) and calls (`Applies.evaluate_call`).

Most operations make a new value and leave the rest as it is (`MakesNew`).
-/

namespace Utterance

open Eval World

variable {args : List Node} {callee : Node} {f r : Ref} {o : Operator}

/-- The operations that a program can write. -/
inductive Operation where
  /-- `xs @ i`. -/
  | place
  | operator (o : Operator)
  | call (b : Builtin)

/-- A node applies an operation to values: its operands evaluate to them, from the world `w` on, and then the world is
`v`. What is called is the function `b` by then, as seen in some frame. -/
inductive Applies (frame : Frame) : Operation → List Ref → Node → World → World → Prop
  | place {span collection key c k w u v} : evaluate collection frame w = .ok c u → evaluate key frame u = .ok k v →
    Applies frame .place [c, k] (.index span collection key) w v
  | operator {span op o left right l r w u v} : Operator.ofToken? op = some o →
    evaluate left frame w = .ok l u → evaluate right frame u = .ok r v →
    Applies frame (.operator o) [l, r] (.binary span left op right) w v
  | call {span callee args b f rs w u v} : (do Eval.place (← copy (← evaluate callee frame)) span) w = .ok f u →
    args.mapM (evaluate · frame) u = .ok rs v →
    (v.cell f).payload = .builtin b → (v.cell f).frame.isSome = true →
    Applies frame (.call b) rs (.apply span callee args) w v

/-- Whatever node applies an operation to values in a world, its evaluation is as said. -/
structure Performs (v : World) (op : Operation) (rs : List Ref) (P : Outcome Ref → Prop) : Prop where
  of {frame node w} : Applies frame op rs node w v → P (evaluate node frame w)

def Succeeds (x : Outcome Ref) : Prop := ∃ r u, x = .ok r u

/-- An evaluation ends with an error that a program can handle. -/
def EndsWithError (x : Outcome Ref) : Prop := ∃ d u, x = .error (.error d) u

/-- An evaluation succeeds with a value that has the contents `p`. -/
def Returns (p : Payload) (x : Outcome Ref) : Prop := ∃ r u, x = .ok r u ∧ (u.cell r).payload = p

/-- An evaluation succeeds with a new value that has the contents `p`, and all that existed in the world `v` holds
what it held. -/
def MakesNew (v : World) (p : Payload) (x : Outcome Ref) : Prop :=
  ∃ r u, x = .ok r u ∧ v.size ≤ r ∧ (u.cell r).payload = p ∧ KeepsBut ∅ v u

variable {x : Outcome Ref} {p : Payload}

theorem EndsWithError.not_succeeds (h : EndsWithError x) : ¬ Succeeds x := by
  rintro ⟨r, u, rfl⟩
  obtain ⟨d, v, hd⟩ := h
  cases hd

theorem MakesNew.returns {v : World} (h : MakesNew v p x) : Returns p x := by
  obtain ⟨r, u, hx, -, hp, -⟩ := h
  exact ⟨r, u, hx, hp⟩

theorem Returns.succeeds (h : Returns p x) : Succeeds x := by
  obtain ⟨r, u, hx, -⟩ := h
  exact ⟨r, u, hx⟩

theorem Returns.unique {q : Payload} (hp : Returns p x) (hq : Returns q x) : p = q := by
  obtain ⟨r, u, rfl, rfl⟩ := hp
  obtain ⟨r', u', hx, rfl⟩ := hq
  cases hx
  rfl

namespace KeepsBut

variable {S : Set Stock} {w v u : World}

variable (h : KeepsBut S w v)
include h

theorem payload (hr : r < w.size) (hs : .cell r ∉ S) : (v.cell r).payload = (w.cell r).payload :=
  Contents.value.inj (h.contents (k := .cell r) hs hr)

theorem table {n : Nat} (hn : n < w.store.tables.size) (hs : .table n ∉ S) : v.store.table n = w.store.table n :=
  Contents.entries.inj (h.contents (k := .table n) hs hn)

theorem andThen (h' : KeepsBut ∅ v u) : KeepsBut S w u :=
  (h.trans h').mono (Set.union_empty S).subset

theorem alloc (c : Cell) : KeepsBut S w (v.alloc c) := h.andThen (.of_alloc v c)

end KeepsBut

theorem Store.lt_of_list {s : Store} {es : Array Ref} (h : (s.cell r).payload = .list es) : r < s.cells.size :=
  lt_of_stock (.inl (by rw [h]; rfl))

theorem World.cell_alloc_size (w : World) (c : Cell) : (w.alloc c).store.cell w.size = c :=
  (cell_alloc w c w.size).trans (if_pos rfl)

theorem World.lt_alloc_size (w : World) (c : Cell) : w.size < (w.alloc c).size := by
  simp

namespace Applies

variable {frame : Frame} {node : Node} {w v : World}

theorem ends_bind {α β : Type} {x : Eval α} {f : α → Eval β} (hx : Ends (x v)) (hf : ∀ a u, Ends (f a u)) :
    Ends ((x >>= f) v) := by
  cases h : x v with
  | ok a u =>
    rw [bind_ok h]
    exact hf a u
  | error s u =>
    rw [h] at hx
    rw [bind_error h]
    exact ends_error.2 (ends_error.1 hx)

theorem entry_ends (left right : Cell) (n : Nat) : Ends (entry left right n v) := by
  unfold entry
  cases right.payload.key? with
  | none => exact ends_error.2 nofun
  | some key =>
    refine ends_bind (ends_ok _ _) fun t u => ?_
    cases t.get? key with
    | some r => exact ends_ok _ _
    | none => cases missingKey key <;> exact ends_error.2 nofun

theorem index_ends (collection key : Node) (c k : Ref) : Ends (index collection key c k frame v) := by
  refine ends_bind (ends_ok _ _) fun left u => ends_bind (ends_ok _ _) fun right u' => ?_
  cases left.payload with
  | list es =>
    cases right.payload with
    | number i =>
      dsimp only
      cases scalarIndex? es.size i with
      | some n => exact ends_ok _ _
      | none => exact ends_error.2 nofun
    | _ => exact ends_error.2 nofun
  | dict n => exact entry_ends left right n
  | _ => exact ends_error.2 nofun

section

variable {l : Ref}

theorem operator_step (h : Applies frame (.operator o) [l, r] node w v) :
    ∃ span, step evaluate node frame w = (do Eval.place (← binary o l r) span) v := by
  cases h with
  | @operator span op _ left right _ _ _ _ _ ho hl hr =>
    refine ⟨span, (bind_ok hl).trans ((bind_ok hr).trans ?_)⟩
    rw [ho]

variable {u : World}

variable (h : Applies frame (.operator o) [l, r] node w v)
include h

/-- The result of an operator is seen where the operator stands, and nothing else is changed then. -/
theorem evaluate_operator {x : Ref} (hx : binary o l r v = .ok x u) :
    ∃ u', evaluate node frame w = .ok x u' ∧ KeepsBut ∅ u u' := by
  obtain ⟨span, hstep⟩ := h.operator_step
  rw [bind_ok hx] at hstep
  exact ⟨_, evaluate_of_step hstep (ends_ok _ _), .of_modifyCell u x fun _ => rfl⟩

theorem evaluate_operator_error {s : Signal}
    (hx : binary o l r v = .error s u) (hs : s ≠ .exhausted) : evaluate node frame w = .error s u := by
  obtain ⟨span, hstep⟩ := h.operator_step
  rw [bind_error hx] at hstep
  exact evaluate_of_step hstep (ends_error.2 hs)

theorem binary_of_evaluate {x : Ref}
    (hx : evaluate node frame w = .ok x u) : ∃ u', binary o l r v = .ok x u' ∧ KeepsBut ∅ u' u := by
  obtain ⟨span, hstep⟩ := h.operator_step
  rw [← evaluate_eq_of_ends (by rw [hx]; exact ends_ok x u), hx] at hstep
  cases hb : binary o l r v with
  | ok y u' =>
    rw [bind_ok hb] at hstep
    cases hstep
    exact ⟨u', rfl, .of_modifyCell u' x fun _ => rfl⟩
  | error s u' =>
    rw [bind_error hb] at hstep
    cases hstep

end

section

variable {b : Builtin} {rs : List Ref}

theorem copy_see (x : Ref) (span : Span) (u : World) :
    (do
      let result ← copy x
      let result ← Eval.place result span
      frameIn result frame) u = .ok u.size
        (u.alloc ⟨(u.cell x).payload, some span.start, some span.stop, some frame⟩) := by
  show EStateM.Result.ok _ (((u.alloc (u.cell x)).modifyCell _ _).modifyCell _ _) = _
  rw [modifyCell_alloc, modifyCell_alloc]

/-- A call whose parts have been evaluated: the result of the function is copied, and the copy is seen where the call
stands. -/
theorem evaluate_apply {span : Span} {w' : World}
    (hf : (do Eval.place (← copy (← evaluate callee frame)) span) w = .ok f w')
    (hrs : args.mapM (evaluate · frame) w' = .ok rs v) :
    (∀ {x u}, Eval.call evaluate f rs v = .ok x u → ∃ new : Cell, new.payload = (u.cell x).payload ∧
      evaluate (.apply span callee args) frame w = .ok u.size (u.alloc new)) ∧
    ∀ {s u}, Eval.call evaluate f rs v = .error s u → s ≠ .exhausted →
      evaluate (.apply span callee args) frame w = .error s u := by
  have hparts : application evaluate span callee args frame = (do
      let f ← (do Eval.place (← copy (← evaluate callee frame)) span)
      let rs ← args.mapM (evaluate · frame)
      let result ← Eval.call evaluate f rs
      let result ← copy result
      let result ← Eval.place result span
      frameIn result frame) := by
    unfold application
    simp only [bind_assoc]
  have hstep : step evaluate (.apply span callee args) frame w = (do
      let result ← Eval.call evaluate f rs
      let result ← copy result
      let result ← Eval.place result span
      frameIn result frame) v := by
    show application evaluate span callee args frame w = _
    rw [hparts, bind_ok hf]
    exact bind_ok hrs
  refine ⟨fun {x u} hx => ?_, fun {s u} hx hs => ?_⟩
  · rw [bind_ok hx, copy_see] at hstep
    refine ⟨_, ?_, evaluate_of_step hstep (ends_ok _ _)⟩
    rfl
  · rw [bind_error hx] at hstep
    exact evaluate_of_step hstep (ends_error.2 hs)

/-- A call is entered, which changes no value, and the function is performed there. Where that gives a value, the
result is a copy of it. -/
theorem evaluate_call (h : Applies frame (.call b) rs node w v) (hl : b.params.length = rs.length) :
    ∃ c u, Enters default (some b) c.frame rs v u ∧
      (∀ {x u'}, builtin evaluate c b rs u = .ok x u' → ∃ new : Cell, new.payload = (u'.cell x).payload ∧
        evaluate node frame w = .ok u'.size (u'.alloc new)) ∧
      ∀ {s u'}, builtin evaluate c b rs u = .error s u' → s ≠ .exhausted → evaluate node frame w = .error s u' := by
  cases h with
  | @call span callee args _ f _ _ w' _ hf hrs hb hframe =>
    have hcallable : (v.cell f).payload.isCallable = true := by rw [hb]; rfl
    rcases enterWith_cases default (some b) b.name b.params rs hcallable with ⟨hno, -⟩ | ⟨-, inner, u, hu, he⟩
    · exact absurd ⟨hframe, hl⟩ hno
    · have hcall : Eval.call evaluate f rs v =
          builtin evaluate ⟨(v.cell f).start, (v.cell f).stop, inner⟩ b rs u := by
        unfold Eval.call
        rw [bind_ok (show cell f v = .ok (v.cell f) v from rfl), hb]
        exact bind_ok hu
      obtain ⟨hok, herror⟩ := evaluate_apply hf hrs
      exact ⟨⟨(v.cell f).start, (v.cell f).stop, inner⟩, u, he, fun hx => hok (hcall.trans hx),
        fun hx hs => herror (hcall.trans hx) hs⟩

theorem call_of_evaluateTo (n : Nat) {span : Span} {u : World}
    (hf : (do Eval.place (← copy (← evaluateTo n callee frame)) span) w = .ok f u)
    (hrs : args.mapM (evaluateTo n · frame) u = .ok rs v) (hb : (v.cell f).payload = .builtin b)
    (hframe : (v.cell f).frame.isSome = true) : Applies frame (.call b) rs (.apply span callee args) w v :=
  .call (((evaluateTo_approximates n callee frame).bind fun _ => .refl _).eq_of_ok hf)
    ((Approximates.mapM _ fun node => evaluateTo_approximates n node frame).eq_of_ok hrs) hb hframe

end

end Applies

namespace Performs

variable {v : World} {rs : List Ref}

theorem place {c k : Ref} {P : Outcome Ref → Prop}
    (h : ∀ collection key frame, P (index collection key c k frame v)) : Performs v .place [c, k] P := by
  refine ⟨fun {frame node w} ha => ?_⟩
  cases ha with
  | @place span collection key _ _ _ _ _ hc hk =>
    have hstep : step evaluate (.index span collection key) frame w = index collection key c k frame v :=
      (bind_ok hc).trans (bind_ok hk)
    rw [evaluate_of_step hstep (Applies.index_ends collection key c k)]
    exact h collection key frame

theorem makes {l : Ref} {c : Cell} (h : binary o l r v = .ok v.size (v.alloc c)) :
    Performs v (.operator o) [l, r] (MakesNew v c.payload) := by
  refine ⟨fun ha => ?_⟩
  obtain ⟨u, hu, hk⟩ := ha.evaluate_operator h
  refine ⟨_, u, hu, Nat.le_refl _, ?_, (KeepsBut.of_alloc v c).andThen hk⟩
  rw [hk.payload (lt_alloc_size v c) (Set.notMem_empty _), World.cell, cell_alloc_size]

theorem refuses {l : Ref} (h : EndsWithError (binary o l r v)) : Performs v (.operator o) [l, r] EndsWithError := by
  refine ⟨fun ha => ?_⟩
  obtain ⟨d, u, hd⟩ := h
  exact ⟨d, u, ha.evaluate_operator_error hd nofun⟩

variable {b : Builtin}

theorem callMakes (hl : b.params.length = rs.length) {p : Payload}
    (h : ∀ c u, Enters default (some b) c.frame rs v u → ∃ new : Cell, new.payload = p ∧
      builtin evaluate c b rs u = .ok u.size (u.alloc new)) : Performs v (.call b) rs (MakesNew v p) := by
  refine ⟨fun ha => ?_⟩
  obtain ⟨c, u, he, hok, -⟩ := ha.evaluate_call hl
  obtain ⟨made, hp, hmade⟩ := h c u he
  obtain ⟨new, hnew, hx⟩ := hok hmade
  refine ⟨_, _, hx, (he.keeps.alloc made).cells, ?_, (he.keeps.alloc made).alloc new⟩
  rw [World.cell, cell_alloc_size, hnew, World.cell, cell_alloc_size, hp]

theorem callRefuses (hl : b.params.length = rs.length)
    (h : ∀ c u, Enters default (some b) c.frame rs v u → EndsWithError (builtin evaluate c b rs u)) :
    Performs v (.call b) rs EndsWithError := by
  refine ⟨fun ha => ?_⟩
  obtain ⟨c, u, he, -, herror⟩ := ha.evaluate_call hl
  obtain ⟨d, u', hd⟩ := h c u he
  exact ⟨d, u', herror hd nofun⟩

end Performs

end Utterance

import Utterance.Eval.Evaluate

/-!
# What evaluation can do to a world

`Reaches frame w w'` says that the world `w'` comes from `w` by changes that evaluation can make in code that runs in
a frame. The constructors are all the changes there are: values are made, seen at another place, bound in the own
scope, which also shares names; a call binds its arguments in a new scope and is logged; four built-in functions
change a collection; a script runs in the global scope. `Moves frame x` says that the computation `x` makes only such
changes. Everything else that is said about worlds before and after an evaluation is read off `Reaches`.
-/

namespace Utterance

open Array

/-- Whether a value is a function that a program defines. -/
def Payload.isFunction : Payload → Bool
  | .function .. => true
  | _ => false

def Payload.isCallable : Payload → Bool
  | .function .. => true
  | .builtin .. => true
  | _ => false

def Event.isCall : Event → Bool
  | .called .. => true
  | _ => false

def Event.isSharing : Event → Bool
  | .sharing .. => true
  | .shared .. => true
  | _ => false

namespace World

section

variable (w : World)

def alloc (c : Cell) : World := { w with store := { w.store with cells := w.store.cells.push c } }

def modifyCell (r : Ref) (f : Cell → Cell) : World :=
  { w with store := { w.store with cells := w.store.cells.modify r f } }

def newTable (t : Table) : World := { w with store := { w.store with tables := w.store.tables.push t } }

def modifyTable (n : Nat) (f : Table → Table) : World :=
  { w with store := { w.store with tables := w.store.tables.modify n f } }

def newScope : World := { w with store := { w.store with scopes := w.store.scopes.push .empty } }

def modifyScope (n : Nat) (f : Scope Binding → Scope Binding) : World :=
  { w with store := { w.store with scopes := w.store.scopes.modify n f } }

def record (e : Event) : World := { w with log := e :: w.log }

@[simp] theorem size_alloc (c : Cell) : (w.alloc c).size = w.size + 1 := size_push _

@[simp] theorem size_modifyCell (r : Ref) (f : Cell → Cell) : (w.modifyCell r f).size = w.size :=
  size_modify

@[simp] theorem size_modifyScope (n : Nat) (f : Scope Binding → Scope Binding) :
    (w.modifyScope n f).size = w.size :=
  rfl

@[simp] theorem scopeCount_newScope : w.newScope.scopeCount = w.scopeCount + 1 := size_push _

@[simp] theorem scopeCount_modifyScope (n : Nat) (f : Scope Binding → Scope Binding) :
    (w.modifyScope n f).scopeCount = w.scopeCount :=
  size_modify

@[simp] theorem scopeCount_record (e : Event) : (w.record e).scopeCount = w.scopeCount := rfl

theorem cell_modifyCell (r q : Ref) (f : Cell → Cell) :
    (w.modifyCell r f).cell q = if q = r ∧ r < w.size then f (w.cell q) else w.cell q := by
  unfold World.cell modifyCell Store.cell
  rw [getD_eq_getD_getElem?, getD_eq_getD_getElem?, getElem?_modify]
  by_cases h : r = q
  · subst h
    by_cases hr : r < w.size
    · simp [hr]
    · simp [hr]
  · simp [h, Ne.symm h]

theorem modifyCell_alloc (c : Cell) (f : Cell → Cell) : (w.alloc c).modifyCell w.size f = w.alloc (f c) := by
  have h : (w.store.cells.push c).modify w.size f = w.store.cells.push (f c) := by
    apply ext_getElem?
    intro i
    rw [getElem?_modify, getElem?_push, getElem?_push]
    by_cases hi : i = w.size
    · simp [hi]
    · simp [hi, Ne.symm hi]
  simp only [alloc, modifyCell, h]

theorem cell_alloc (c : Cell) (q : Ref) : (w.alloc c).cell q = if q = w.size then c else w.cell q := by
  unfold World.cell alloc Store.cell
  rw [getD_eq_getD_getElem?, getD_eq_getD_getElem?, getElem?_push]
  split
  · rfl
  · rfl

/-- What does not hold where there is no value. -/
theorem lt_of_cell {Q : Cell → Prop} {q : Ref} (hnone : ¬ Q default) (h : Q (w.cell q)) : q < w.size := by
  refine Nat.lt_of_not_le fun hq => hnone ?_
  rwa [World.cell, Store.cell, getD_eq_getD_getElem?, getElem?_eq_none hq] at h

theorem lt_of_isCallable {q : Ref} (h : (w.cell q).payload.isCallable = true) : q < w.size :=
  w.lt_of_cell (Q := (·.payload.isCallable = true)) (by decide) h

/-- What holds of the values that exist from the start, and where there is none, holds everywhere at the start. -/
theorem cell_initial {Q : Cell → Prop} (hnone : Q default) (hgiven : ∀ c ∈ Store.givenCells, Q c) (q : Ref) :
    Q (Store.initial.cell q) := by
  unfold Store.cell Store.initial
  rw [getD_eq_getD_getElem?, List.getElem?_toArray]
  cases h : Store.givenCells[q]? with
  | none => exact hnone
  | some c => exact hgiven c (List.mem_of_getElem? h)

theorem scope_modifyScope_of_ne {n m : Nat} (f : Scope Binding → Scope Binding) (h : m ≠ n) :
    (w.modifyScope n f).scope m = w.scope m := by
  unfold World.scope modifyScope Store.scope
  rw [getD_eq_getD_getElem?, getD_eq_getD_getElem?, getElem?_modify, if_neg (Ne.symm h)]

theorem scope_newScope {n : Nat} (h : n < w.scopeCount) : w.newScope.scope n = w.scope n := by
  unfold World.scope newScope Store.scope
  rw [getD_eq_getD_getElem?, getD_eq_getD_getElem?, getElem?_push_lt h,
    getElem?_eq_getElem h]

end

end World

def after {α : Type} : Outcome α → World
  | .ok _ w => w
  | .error _ w => w

/-- The elements of a list changed, all other values as they are. -/
def Cell.mapElements (f : Array Ref → Array Ref) (c : Cell) : Cell :=
  match c.payload with
  | .list es => { c with payload := .list (f es) }
  | _ => c

/-- The frame of code in a new scope inside those of a frame. -/
def World.inside (w : World) (frame : Frame) : Frame := { frame with scopes := w.scopeCount :: frame.scopes }

/-- Frames in which code in a frame can go on: its own one, that of a program, that of a value that can be called. -/
def Known (frame : Frame) (w : World) (inner : Frame) : Prop :=
  inner = frame ∨ (∃ name, inner = Eval.programFrame name) ∨
    ∃ q, (w.cell q).payload.isCallable = true ∧ (w.cell q).frame = some inner

/-- Frames in which code in a frame can see a value: its own one, that of another value. -/
def Seen (frame : Frame) (w : World) (inner : Frame) : Prop := inner = frame ∨ ∃ q, (w.cell q).frame = some inner

/-- A call of `b` is entered: it gets a level and a new scope inside a known frame, its arguments are bound there, and
it is logged. -/
def Enters (frame : Frame) (b : Option Builtin) (inner : Frame) (args : List Ref) (w w' : World) : Prop :=
  ∃ outer level names v, Known frame w outer ∧ inner = ⟨level :: outer.levels, w.scopeCount :: outer.scopes⟩ ∧
    names.length = args.length ∧ Eval.bindArgs inner names args w.newScope = .ok () v ∧
    w' = v.record (.called b inner args)

/-- The changes of a world that code in a frame can make. -/
inductive Reaches : Frame → World → World → Prop
  | refl (frame : Frame) (w : World) : Reaches frame w w
  | trans {frame w v u} : Reaches frame w v → Reaches frame v u → Reaches frame w u
  | alloc (frame : Frame) (w : World) (c : Cell) :
    (c.payload.isCallable = true → ∀ inner, c.frame = some inner → Known frame w inner) →
    (∀ inner, c.frame = some inner → Seen frame w inner) → Reaches frame w (w.alloc c)
  | place (frame : Frame) (w : World) (r : Ref) (span : Span) :
    Reaches frame w (w.modifyCell r fun c => { c with start := some span.start, stop := some span.stop })
  /-- Only a call moves a function into another frame. -/
  | reframe (frame : Frame) (w : World) (r : Ref) : (w.cell r).payload.isFunction = false →
    Reaches frame w (w.modifyCell r fun c => { c with frame := some frame })
  | newTable (frame : Frame) (w : World) (t : Table) : Reaches frame w (w.newTable t)
  | bind {frame n outer} (w : World) (name : String) (b : Binding) : frame.scopes = n :: outer →
    Reaches frame w (w.modifyScope n (·.set name (some b)))
  | sharing {frame n outer} (w : World) : frame.scopes = n :: outer →
    Reaches frame w ((w.modifyScope n (·.beginSharing)).record (.sharing n))
  | shared {frame n outer} (w : World) (name : String) : frame.scopes = n :: outer →
    Reaches frame w ((w.modifyScope n (·.addExport name)).record (.shared n name))
  | stream (frame : Frame) (w : World) (out : String) (input : List Char) :
    Reaches frame w { w with out := out, input := input }
  /-- A module is remembered by its own code. -/
  | loader (frame : Frame) (w : World) (f : Loader LoadedModule → Loader LoadedModule) :
    (∀ e ∈ (f w.loader).cache, e ∈ w.loader.cache ∨ e.2.scope :: e.2.outer = frame.scopes) →
    Reaches frame w { w with loader := f w.loader }
  /-- Everything but a call and what is shared is logged as it happens. -/
  | noted (frame : Frame) (w : World) (e : Event) : e.isCall = false → e.isSharing = false →
    Reaches frame w (w.record e)
  /-- Code in a new scope. -/
  | scope {frame inner w v} : Known frame w inner → Reaches (w.inside inner) w.newScope v → Reaches frame w v
  /-- The body of a function. -/
  | call {frame b inner args w v u} :
    Enters frame b inner args w v → Reaches inner v u → Reaches frame w u
  /-- The built-in functions that change a list. -/
  | elements {frame b inner r args w v} (f : Array Ref → Array Ref) : b ∈ [Builtin.append, .pop, .extend] →
    Enters frame (some b) inner (r :: args) w v → Reaches frame w (v.modifyCell r (Cell.mapElements f))
  /-- The built-in function that changes a dictionary. -/
  | erase {frame inner r args w v table} (key : Scalar) :
    Enters frame (some .remove) inner (r :: args) w v → (v.cell r).payload = .dict table →
    Reaches frame w (v.modifyTable table (·.erase key))
  /-- The built-in function that runs a script in the global scope. -/
  | run {frame inner args w v u} (name : String) : Enters frame (some .run) inner args w v →
    Reaches (Eval.programFrame name) v u → Reaches frame w u

namespace Eval

variable {α β σ : Type} {frame : Frame}

/-- In the world `w`, a computation makes only changes that code in a frame can make. -/
def MovesAt (frame : Frame) (x : Eval α) (w : World) : Prop := Ends (x w) → Reaches frame w (after (x w))

/-- A computation makes only changes that code in a frame can make. -/
def Moves (frame : Frame) (x : Eval α) : Prop := ∀ w, MovesAt frame x w

variable {x : Eval α} {f : α → Eval β} {w v : World}

theorem bind_ok {a : α} (h : x w = .ok a v) : (x >>= f) w = f a v := by
  show EStateM.bind x f w = _
  rw [EStateM.bind, h]

theorem bind_error {s : Signal} (h : x w = .error s v) : (x >>= f) w = .error s v := by
  show EStateM.bind x f w = _
  rw [EStateM.bind, h]

theorem tryCatch_ok {f : Signal → Eval α} {a : α} (h : x w = .ok a v) : (tryCatch x f) w = .ok a v := by
  show EStateM.tryCatch x f w = _
  delta EStateM.tryCatch
  rw [h]

theorem tryCatch_error {f : Signal → Eval α} {s : Signal} (h : x w = .error s v) : (tryCatch x f) w = f s v := by
  show EStateM.tryCatch x f w = _
  delta EStateM.tryCatch
  rw [h]
  rfl

theorem MovesAt.bind (hx : MovesAt frame x w) (hf : ∀ a v, x w = .ok a v → MovesAt frame (f a) v) :
    MovesAt frame (x >>= f) w := by
  intro he
  cases h : x w with
  | ok a v =>
    rw [bind_ok h] at he ⊢
    have hw := hx (by rw [h]; exact ends_ok a v)
    rw [h] at hw
    exact hw.trans (hf a v h he)
  | error s v =>
    rw [bind_error h, ends_error] at he
    have hw := hx (by rw [h, ends_error]; exact he)
    rw [h] at hw
    rwa [bind_error h]

theorem Moves.reaches {r : Outcome α} (h : Moves frame x) (hx : x w = r) (hr : Ends r) : Reaches frame w (after r) := by
  subst hx
  exact h w hr

theorem Moves.bind (hx : Moves frame x) (hf : ∀ a, Moves frame (f a)) : Moves frame (x >>= f) :=
  fun w => (hx w).bind fun a v _ => hf a v

/-- A handler that does not handle endless evaluation keeps changes in bounds. -/
theorem Moves.tryCatch {f : Signal → Eval α} (hx : Moves frame x) (hf : ∀ s, Moves frame (f s))
    (hs : f .exhausted = throw .exhausted) : Moves frame (tryCatch x f) := by
  intro w he
  cases h : x w with
  | ok a v =>
    have hw := hx w (by rw [h]; exact ends_ok a v)
    rw [h] at hw
    rwa [tryCatch_ok h]
  | error s v =>
    rw [tryCatch_error h] at he ⊢
    have hne : s ≠ .exhausted := by
      rintro rfl
      exact he v (by rw [hs]; rfl)
    have hw := hx w (by rwa [h, ends_error])
    rw [h] at hw
    exact hw.trans (hf s v he)

theorem Moves.pure (a : α) : Moves frame (pure a : Eval α) := fun w _ => .refl frame w

theorem Moves.throw (s : Signal) : Moves frame (throw s : Eval α) := fun w _ => .refl frame w

theorem Moves.ite {c : Prop} [Decidable c] {y : Eval α} (hx : Moves frame x) (hy : Moves frame y) :
    Moves frame (if c then x else y) := by
  split <;> assumption

theorem Moves.mapM (l : List α) (h : ∀ a, Moves frame (f a)) : Moves frame (l.mapM f) := by
  induction l with
  | nil => exact .pure _
  | cons a l ih =>
    rw [List.mapM_cons]
    exact (h a).bind fun _ => ih.bind fun _ => .pure _

theorem Moves.forM {f : α → Eval PUnit} (l : List α) (h : ∀ a, Moves frame (f a)) : Moves frame (l.forM f) := by
  induction l with
  | nil => exact .pure _
  | cons a l ih => exact (h a).bind fun _ => ih

theorem Moves.iterate {step : σ → Eval (σ ⊕ α)} (h : ∀ s, Moves frame (step s)) (s : σ) :
    Moves frame (iterate step s) := by
  intro w he
  refine iterate_induction (P := fun _ w r => Ends r → Reaches frame w (after r)) ?_ ?_ ?_ s w he he
  · intro s w s' v r hs ih hr
    have hw := h s w (by rw [hs]; exact ends_ok _ v)
    rw [hs] at hw
    exact hw.trans (ih hr)
  · intro s w a v hs _
    have hw := h s w (by rw [hs]; exact ends_ok _ v)
    rwa [hs] at hw
  · intro s w e v hs hr
    have hw := h s w (by rw [hs]; exact ends_error.2 (ends_error.1 hr))
    rwa [hs] at hw

theorem get_moves : Moves frame (get : Eval World) := fun w _ => .refl frame w

theorem store_moves : Moves frame store := get_moves.bind fun _ => .pure _

theorem cell_moves (r : Ref) : Moves frame (cell r) := get_moves.bind fun _ => .pure _

theorem payload_moves (r : Ref) : Moves frame (payload r) := (cell_moves r).bind fun _ => .pure _

theorem lookup_moves (frame' : Frame) (name : String) : Moves frame (lookup frame' name) :=
  get_moves.bind fun _ => .pure _

theorem lift_moves (x : Except Fault α) : Moves frame (lift x) := by
  cases x with
  | ok a => exact .pure a
  | error f => exact .throw _

theorem make_moves (p : Payload) (span : Span) : Moves frame (make p span frame) :=
  fun w _ => .alloc _ w _ (fun _ _ h => .inl (Option.some.inj h).symm) fun _ h => .inl (Option.some.inj h).symm

theorem copy_moves (r : Ref) : Moves frame (copy r) :=
  fun w _ => .alloc _ w _ (fun hc _ hf => .inr (.inr ⟨r, hc, hf⟩)) fun _ hf => .inr ⟨r, hf⟩

theorem place_moves (r : Ref) (span : Span) : Moves frame (place r span) := fun w _ => .place frame w r span

theorem record_moves {e : Event} (h : e.isCall = false) (h' : e.isSharing = false) : Moves frame (record e) :=
  fun w _ => .noted frame w e h h'

theorem bind_moves (name : String) (b : Binding) : Moves frame (bind frame name b) := by
  unfold Eval.bind
  split
  · next hs => exact fun w _ => .bind w name b hs
  · exact .pure _

end Eval

end Utterance

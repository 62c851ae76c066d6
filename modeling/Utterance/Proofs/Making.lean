import Utterance.Proofs.Reach

/-!
# Computations that only make values

Operators and most built-in functions read values, make new ones that cannot be called, print and read (`Makes`). They
fail for good, or with a report about their operands or about the call that they stand in (`Fails`). The new values
and the reports have frames that were there before; `K` are the frames that are known. `Plain K site x` says that the
computation `x` does no more than this; `site` is the call that `x` stands in, if it is a built-in function.
-/

namespace Utterance

/-- The reports of operators; they tell where the operands were last seen. -/
inductive OperandReport : String → Prop
  | illegal : OperandReport "Illegal operation"
  | immutable : OperandReport "Tuples are immutable and cannot be modified"
  | badKey : OperandReport "Dictionary key must be a string or number"
  | missingKey {key report} : Eval.missingKey key = .ok report → OperandReport report
  | removal : OperandReport "Element at this index could not be removed from list because index is out of bounds"
  | listElement :
    OperandReport "Element at this index could not be retrieved from list because index is out of bounds"
  | tupleElement :
    OperandReport "Element at this index could not be retrieved from tuple because index is out of bounds"
  | division : OperandReport "Division by zero"
  | modulo : OperandReport "Modulo by zero"
  | unordered : OperandReport "Sets are unordered and do not support indexing"

def Cell.FrameIn (K : Frame → Prop) (c : Cell) : Prop := ∀ frame, c.frame = some frame → K frame

def World.FramesIn (K : Frame → Prop) (w : World) : Prop := ∀ r, (w.cell r).FrameIn K

/-- How a computation that only makes values fails. -/
inductive Fails (K : Frame → Prop) (site : Option Call) : Signal → Prop
  | fault (f) : Fails K site (.fault f)
  | exit : Fails K site .exit
  | interrupt : Fails K site .interrupt
  | exhausted : Fails K site .exhausted
  | operand {c : Cell} {details : String} (start stop) : c.FrameIn K → OperandReport details →
    Fails K site (.error ⟨.runtime c.levels, start, stop, details⟩)
  | refused {c : Call} (details) : site = some c →
    Fails K site (.error ⟨.runtime c.frame.levels, c.start, c.stop, details⟩)

/-- New values that cannot be called, with known frames, and what is printed and read. -/
inductive Makes (K : Frame → Prop) : World → World → Prop
  | refl (w) : Makes K w w
  | trans {w v u} : Makes K w v → Makes K v u → Makes K w u
  | alloc (w) {c : Cell} : c.payload.isCallable = false → c.FrameIn K → Makes K w (w.alloc c)
  | newTable (w t) : Makes K w (w.newTable t)
  | stream (w out input) : Makes K w { w with out := out, input := input }

namespace Makes

variable {K : Frame → Prop} {w v : World}

variable {frame : Frame}

theorem seen {inner : Frame} (h : Makes K w v) (hs : Seen frame w inner) : Seen frame v inner := by
  induction h with
  | refl | newTable | stream => exact hs
  | trans _ _ ih ih' => exact ih' (ih hs)
  | alloc w _ _ =>
    refine hs.imp_right fun ⟨q, hf⟩ => ⟨q, ?_⟩
    have hq := w.lt_of_cell (Q := (·.frame = some inner)) nofun hf
    rwa [World.cell_alloc, if_neg (Nat.ne_of_lt hq)]

theorem reaches (h : Makes K w v) (hk : ∀ f, K f → Seen frame w f) : Reaches frame w v := by
  induction h with
  | refl w => exact .refl _ w
  | trans h _ ih ih' => exact (ih hk).trans (ih' fun f hf => h.seen (hk f hf))
  | alloc w hc hf => exact .alloc _ w _ (fun h => absurd h (by rw [hc]; decide)) fun f h => hk f (hf f h)
  | newTable w t => exact .newTable _ w t
  | stream w out input => exact .stream _ w out input

/-- What holds of all values still holds, if it holds of new ones. -/
theorem cells {Q : Cell → Prop} (hq : ∀ c, c.payload.isCallable = false → c.FrameIn K → Q c) (h : Makes K w v)
    (hw : ∀ r, Q (w.cell r)) : ∀ r, Q (v.cell r) := by
  induction h with
  | refl | newTable | stream => exact hw
  | trans _ _ ih ih' => exact ih' (ih hw)
  | alloc w hp hc =>
    intro r
    rw [World.cell_alloc]
    split
    · exact hq _ hp hc
    · exact hw r

theorem framesIn (h : Makes K w v) (hw : w.FramesIn K) : v.FramesIn K := h.cells (fun _ _ hc => hc) hw

theorem rest (h : Makes K w v) : v.files = w.files ∧ v.loader = w.loader ∧ v.log = w.log := by
  induction h with
  | trans _ _ ih ih' => exact ⟨ih'.1.trans ih.1, ih'.2.1.trans ih.2.1, ih'.2.2.trans ih.2.2⟩
  | _ => exact ⟨rfl, rfl, rfl⟩

end Makes

namespace Eval

def Plain (K : Frame → Prop) (site : Option Call) {α : Type} (x : Eval α) : Prop :=
  ∀ w, w.FramesIn K → Makes K w (after (x w)) ∧ ∀ s v, x w = .error s v → Fails K site s

namespace Plain

variable {α β : Type} {K : Frame → Prop} {site : Option Call} {frame : Frame} {x : Eval α}

theorem bind {f : α → Eval β} (hx : Plain K site x) (hf : ∀ a, Plain K site (f a)) : Plain K site (x >>= f) := by
  intro w hw
  obtain ⟨hm, hs⟩ := hx w hw
  cases h : x w with
  | ok a v =>
    rw [h] at hm
    rw [bind_ok h]
    obtain ⟨hm', hs'⟩ := hf a v (hm.framesIn hw)
    exact ⟨hm.trans hm', hs'⟩
  | error s v =>
    rw [h] at hm
    rw [bind_error h]
    refine ⟨hm, ?_⟩
    rintro s' v' h'
    cases h'
    exact hs s v h

theorem pure (a : α) : Plain K site (pure a : Eval α) := fun w _ => ⟨.refl w, fun _ _ h => nomatch h⟩

theorem throw {s : Signal} (h : Fails K site s) : Plain K site (throw s : Eval α) :=
  fun w _ => ⟨.refl w, fun s' v h' => by cases h'; exact h⟩

theorem fault (f : Fault) : Plain K site (Eval.fault f : Eval α) := throw (.fault f)

theorem ite {c : Prop} [Decidable c] {y : Eval α} (hx : Plain K site x) (hy : Plain K site y) :
    Plain K site (if c then x else y) := by
  split
  · exact hx
  · exact hy

theorem get {f : World → Eval α} (h : ∀ w, w.FramesIn K → Plain K site (f w)) : Plain K site (MonadState.get >>= f) :=
  fun w hw => h w hw w hw

theorem cell {f : Cell → Eval α} (r : Ref) (h : ∀ c, c.FrameIn K → Plain K site (f c)) : Plain K site (cell r >>= f) :=
  fun w hw => h (w.cell r) (hw r) w hw

theorem payload (r : Ref) : Plain K site (payload r) := fun w _ => ⟨.refl w, fun _ _ h => nomatch h⟩

theorem store : Plain K site store := fun w _ => ⟨.refl w, fun _ _ h => nomatch h⟩

theorem table (n : Nat) : Plain K site (table n) := fun w _ => ⟨.refl w, fun _ _ h => nomatch h⟩

theorem lift (x : Except Fault α) : Plain K site (lift x) := by
  cases x with
  | ok a => exact .pure a
  | error f => exact fault f

theorem ofPrinting (x : Printing α) : Plain K site (ofPrinting x) := by
  unfold Eval.ofPrinting
  split
  · exact lift _
  · exact throw .exhausted

theorem shown (r : Ref) : Plain K site (shown r) := store.bind fun _ => ofPrinting _

theorem alloc {c : Cell} (h : c.payload.isCallable = false) (hc : c.FrameIn K) : Plain K site (alloc c) :=
  fun w _ => ⟨.alloc w h hc, fun _ _ h => nomatch h⟩

theorem fresh {p : Payload} (h : p.isCallable = false) : Plain K site (fresh p) :=
  alloc h fun _ hf => nomatch hf

theorem newTable (t : Table) : Plain K site (newTable t) := fun w _ => ⟨.newTable w t, fun _ _ h => nomatch h⟩

theorem printLine (s : String) : Plain K site (printLine s) :=
  fun w _ => ⟨.stream w (w.out ++ s ++ "\n") w.input, fun _ _ h => nomatch h⟩

theorem readLine : Plain K site readLine := by
  refine get fun w _ => ite (fault _) (bind (fun v _ => ⟨.stream v v.out _, fun _ _ h => nomatch h⟩) fun _ =>
    ite ?_ (.pure _))
  exact throw .interrupt

/-- Nothing that makes only values changes anything else. -/
theorem movesAt (site : Option Call) {w : World} (h : Plain (Seen frame w) site x) : MovesAt frame x w :=
  fun _ => (h w fun q _ hf => .inr ⟨q, hf⟩).1.reaches fun _ => id

theorem moves (h : ∀ K, Plain K site x) : Moves frame x := fun _ => movesAt site (h _)

end Plain

def Reads {α : Type} (x : Eval α) : Prop := ∀ w, after (x w) = w

/-- A computation that leaves the world as it was if it ends with an error. -/
def Tidy {α : Type} (x : Eval α) : Prop := ∀ (w v : World) (d : Diagnostic), x w = .error (.error d) v → v = w

section

variable {α β : Type} {x : Eval α} {f : α → Eval β}

theorem Reads.bind (hx : Reads x) (hf : ∀ a, Reads (f a)) : Reads (x >>= f) := by
  intro w
  have h := hx w
  cases hr : x w with
  | ok a v =>
    rw [hr] at h
    rw [bind_ok hr, hf a v, show v = w from h]
  | error s v =>
    rw [hr] at h
    rw [bind_error hr]
    exact h

theorem Reads.pure (a : α) : Reads (pure a : Eval α) := fun _ => rfl

theorem Reads.throw (s : Signal) : Reads (throw s : Eval α) := fun _ => rfl

theorem lift_reads (x : Except Fault α) : Reads (lift x) := by
  cases x <;> exact fun _ => rfl

theorem Reads.tidy (h : Reads x) : Tidy x := fun w v d hx => by
  have hw := h w
  rwa [hx] at hw

theorem Reads.andThen (hx : Reads x) (hf : ∀ a, Tidy (f a)) : Tidy (x >>= f) := by
  intro w v d h
  have hw := hx w
  cases hr : x w with
  | ok a u =>
    rw [hr] at hw
    obtain rfl : u = w := hw
    rw [bind_ok hr] at h
    exact hf a u v d h
  | error s u =>
    rw [hr] at hw
    rw [bind_error hr] at h
    injection h with _ hv
    exact hv ▸ hw

end

section

variable {α β : Type} (K : Frame → Prop) (site : Option Call)

/-- A check: it only looks at values, and may be refused. -/
class Looks (x : Eval α) : Prop where
  plain : Plain K site x
  reads : Reads x

/-- Work: it makes values, and never ends with an error that a program can handle. -/
class Works (x : Eval α) : Prop where
  plain : Plain K site x
  sure : ∀ {w v : World} {d : Diagnostic}, x w ≠ .error (.error d) v

/-- What is neither refused nor changes anything. -/
class Settled (x : Eval α) : Prop where
  plain : Plain K site x
  reads : Reads x
  sure : ∀ {w v : World} {d : Diagnostic}, x w ≠ .error (.error d) v

/-- Checks and then work. -/
class Neat (x : Eval α) : Prop where
  plain : Plain K site x
  tidy : Tidy x

variable {K : Frame → Prop} {site : Option Call} {x : Eval α} {f : α → Eval β}

instance [h : Settled K site x] : Looks K site x := ⟨h.plain, h.reads⟩

instance [h : Settled K site x] : Works K site x := ⟨h.plain, h.sure⟩

instance [h : Looks K site x] : Neat K site x := ⟨h.plain, h.reads.tidy⟩

instance [h : Works K site x] : Neat K site x := ⟨h.plain, fun _ _ _ hx => absurd hx h.sure⟩

theorem Looks.bind (hx : Looks K site x) (hf : ∀ a, Looks K site (f a)) : Looks K site (x >>= f) :=
  ⟨hx.plain.bind fun a => (hf a).plain, hx.reads.bind fun a => (hf a).reads⟩

theorem Works.bind (hx : Works K site x) (hf : ∀ a, Works K site (f a)) : Works K site (x >>= f) where
  plain := hx.plain.bind fun a => (hf a).plain
  sure {w v d} h := by
    cases hr : x w with
    | ok a u =>
      rw [bind_ok hr] at h
      exact (hf a).sure h
    | error s u =>
      rw [bind_error hr] at h
      cases h
      exact hx.sure hr

theorem Works.neat (h : Works K site x) : Neat K site x := inferInstance

theorem Neat.bind (hx : Looks K site x) (hf : ∀ a, Neat K site (f a)) : Neat K site (x >>= f) :=
  ⟨hx.plain.bind fun a => (hf a).plain, hx.reads.andThen fun a => (hf a).tidy⟩

instance [hx : Looks K site x] [hf : ∀ a, Looks K site (f a)] : Looks K site (x >>= f) := hx.bind hf

instance [hx : Works K site x] [hf : ∀ a, Works K site (f a)] : Works K site (x >>= f) := hx.bind hf

instance [hx : Looks K site x] [hf : ∀ a, Neat K site (f a)] : Neat K site (x >>= f) := .bind hx hf

section

variable (c : Prop) [Decidable c] (y : Eval α)

instance [Works K site x] [Works K site y] : Works K site (if c then x else y) := by
  split <;> infer_instance

instance [Neat K site x] [Neat K site y] : Neat K site (if c then x else y) := by
  split <;> infer_instance

end

instance (a : α) : Settled K site (pure a : Eval α) := ⟨.pure a, .pure a, fun h => nomatch h⟩

instance (f : Fault) : Settled K site (fault f : Eval α) := ⟨.fault f, .throw _, fun h => nomatch h⟩

instance (type property : String) : Settled K site (noProperty type property : Eval α) :=
  inferInstanceAs (Settled K site (fault _))

instance (x : Except Fault α) : Settled K site (lift x) := by
  cases x with
  | ok a => exact inferInstanceAs (Settled K site (pure a))
  | error f => exact inferInstanceAs (Settled K site (fault f))

instance (x : Printing α) : Settled K site (ofPrinting x) := by
  unfold ofPrinting
  split
  · infer_instance
  · exact ⟨.throw .exhausted, .throw _, fun h => nomatch h⟩

instance : Settled K site (get : Eval World) :=
  ⟨fun w _ => ⟨.refl w, fun _ _ h => nomatch h⟩, fun _ => rfl, fun h => nomatch h⟩

instance (r : Ref) : Settled K site (cell r) :=
  ⟨fun w _ => ⟨.refl w, fun _ _ h => nomatch h⟩, fun _ => rfl, fun h => nomatch h⟩

instance (r : Ref) : Settled K site (payload r) := ⟨.payload r, fun _ => rfl, fun h => nomatch h⟩

instance : Settled K site store := ⟨.store, fun _ => rfl, fun h => nomatch h⟩

instance (n : Nat) : Settled K site (table n) := ⟨.table n, fun _ => rfl, fun h => nomatch h⟩

instance (c : Call) (details : String) : Looks K (some c) (c.refuse details : Eval α) :=
  ⟨.throw (.refused details rfl), .throw _⟩

theorem Works.alloc {c : Cell} (h : c.payload.isCallable = false) (hc : c.FrameIn K) : Works K site (alloc c) :=
  ⟨.alloc h hc, fun h => nomatch h⟩

theorem Works.fresh {p : Payload} (h : p.isCallable = false) : Works K site (fresh p) := .alloc h fun _ hf => nomatch hf

instance (n : Int) : Works K site (newNumber n) := .fresh rfl

instance (s : String) : Works K site (newString s) := .fresh rfl

instance (b : Bool) : Works K site (newTruth b) := .fresh rfl

instance (rs : List Ref) : Works K site (newList rs) := .fresh rfl

instance (rs : List Ref) : Works K site (Eval.fresh (.tuple rs)) := .fresh rfl

instance (ms : Members) : Works K site (Eval.fresh (.set ms)) := .fresh rfl

instance (n : Nat) : Works K site (Eval.fresh (.dict n)) := .fresh rfl

instance (t : Table) : Works K site (newTable t) := ⟨.newTable t, fun h => nomatch h⟩

instance (s : String) : Works K site (printLine s) := ⟨.printLine s, fun h => nomatch h⟩

instance : Works K site readLine where
  plain := .readLine
  sure {w v d} h := by
    change (if w.input.isEmpty = true then fault _ else _ : Eval String) w = _ at h
    split at h
    · cases h
    · change (if _ then throw _ else pure _ : Eval String) _ = _ at h
      split at h <;> cases h

theorem Looks.mapM {f : α → Eval β} (l : List α) (h : ∀ a, Looks K site (f a)) : Looks K site (l.mapM f) := by
  induction l with
  | nil => exact inferInstanceAs (Looks K site (pure []))
  | cons a l ih =>
    rw [List.mapM_cons]
    exact (h a).bind fun _ => ih.bind inferInstance

theorem Works.mapM {f : α → Eval β} (l : List α) (h : ∀ a, Works K site (f a)) : Works K site (l.mapM f) := by
  induction l with
  | nil => exact inferInstanceAs (Works K site (pure []))
  | cons a l ih =>
    rw [List.mapM_cons]
    exact (h a).bind fun _ => ih.bind inferInstance

instance (l : List α) (f : α → Eval β) [h : ∀ a, Works K site (f a)] : Works K site (l.mapM f) := .mapM l h

end

end Eval

end Utterance

import Utterance.Proofs.MatchingOutcomes
import Utterance.Proofs.PrintedForms

/-!
# The machine in matched worlds

What the machine reads is the same in matched worlds (`Worlds.lookup`, `Store.Alike.printed`), and what it changes
keeps them matched. A computation that only reads is stated with what comes after it, in the same worlds
(`Meets.payload`, `Meets.lift`); one that changes the world by itself (`alloc_steady`).
-/

namespace Utterance

variable {levels levels' : List Level} {r r' : Ref}

section

variable {T : Ref → Ref → Prop}

namespace Table.Alike

variable {t t' : Table}

variable (h : Table.Alike T t t')
include h

theorem any_eq (p : Scalar → Bool) : t.any (p ·.1) = t'.any (p ·.1) := by
  induction h with
  | nil => rfl
  | cons he _ ih => rw [List.any_cons, List.any_cons, ih, he.1]

theorem get? (key : Scalar) : Option.Rel T (t.get? key) (t'.get? key) := by
  unfold Table.get?
  induction h with
  | nil => exact .none
  | cons he _ ih =>
    rw [List.find?_cons, List.find?_cons, he.1]
    split
    · exact .some he.2
    · exact ih

theorem set (key : Scalar) (hr : T r r') : Table.Alike T (t.set key r) (t'.set key r') := by
  unfold Table.set
  rw [h.any_eq (·.same key)]
  split
  · rw [Table.Alike, List.forall₂_map_left_iff, List.forall₂_map_right_iff]
    refine List.Forall₂.imp (fun e e' he => ?_) h
    rw [he.1]
    split
    · exact ⟨rfl, hr⟩
    · exact he
  · exact List.rel_append h (.cons ⟨rfl, hr⟩ .nil)

theorem erase (key : Scalar) : Table.Alike T (t.erase key) (t'.erase key) :=
  List.rel_filter (fun e e' he => by dsimp only; rw [he.1]) h

end Table.Alike

namespace Scope.Alike

variable {s s' : Scope Binding} {b b' : Binding}

variable (h : Scope.Alike T s s')
include h

theorem get? (name : String) : Option.Rel (Binding.Alike T) (s.get? name) (s'.get? name) := by
  have key : ∀ {l l' : List Entry}, List.Forall₂ (Scope.EntryAlike T) l l' →
      Option.Rel (Binding.Alike T) (l.lookup name).join (l'.lookup name).join := by
    intro l l' hl
    induction hl with
    | nil => exact .none
    | @cons b b' _ _ hb _ ih =>
      obtain ⟨n, b⟩ := b
      obtain ⟨n', b'⟩ := b'
      obtain ⟨rfl, hb⟩ := hb
      rw [List.lookup_cons, List.lookup_cons]
      cases name == n with
      | true => exact hb
      | false => exact ih
  exact key h.bindings

theorem set (name : String) (hb : b.Alike T b') : Scope.Alike T (s.set name (some b)) (s'.set name (some b')) := by
  refine ⟨?_, h.exports⟩
  have key : ∀ {l l' : List Entry}, List.Forall₂ (Scope.EntryAlike T) l l' →
      List.Forall₂ (Scope.EntryAlike T) (Scope.bindIn name (some b) l) (Scope.bindIn name (some b') l') := by
    intro l l' hl
    induction hl with
    | nil => exact .cons ⟨rfl, .some hb⟩ .nil
    | @cons c c' _ _ hc hl ih =>
      obtain ⟨n, c⟩ := c
      obtain ⟨n', c'⟩ := c'
      obtain ⟨rfl, hc⟩ := hc
      unfold Scope.bindIn
      split
      · exact .cons ⟨rfl, .some hb⟩ hl
      · exact .cons ⟨rfl, hc⟩ ih
  exact key h.bindings

theorem beginSharing : Scope.Alike T s.beginSharing s'.beginSharing := by
  refine ⟨h.bindings, ?_⟩
  unfold Scope.beginSharing
  rw [h.exports]

theorem addExport (name : String) : Scope.Alike T (s.addExport name) (s'.addExport name) := by
  refine ⟨h.bindings, ?_⟩
  unfold Scope.addExport
  rw [h.exports]

end Scope.Alike

end

theorem mapM_eq_of_forall₂ {α β γ : Type} {f : α → Printing γ} {g : β → Printing γ} {l : List α} {l' : List β}
    (h : List.Forall₂ (fun a b => f a = g b) l l') : l.mapM f = l'.mapM g := by
  induction h with
  | nil => rw [List.mapM_nil, List.mapM_nil]
  | cons h _ ih => rw [List.mapM_cons, List.mapM_cons, h, ih]

namespace Store

variable {T : Ref → Ref → Prop} {s s' : Store}

/-- Two stores hold the same, up to what stands for each other. -/
structure Alike (T : Ref → Ref → Prop) (s s' : Store) : Prop where
  payload : ∀ r r', T r r' → (s.cell r).payload.Alike T (s'.cell r').payload
  table : ∀ n, Table.Alike T (s.table n) (s'.table n)

section

variable (h : s.Alike T s')
include h

theorem Alike.printedTo (f : Form) (n : Nat) (hr : T r r') : s.printedTo f n r = s'.printedTo f n r' := by
  induction n generalizing r r' with
  | zero => rfl
  | succ n ih =>
    have hp := h.payload r r' hr
    unfold Store.printedTo printedWith
    generalize (s.cell r).payload = p, (s'.cell r').payload = p' at hp
    cases hp with
    | list hes | tuple hes => simp only [mapM_eq_of_forall₂ (hes.imp fun _ _ => ih)]
    | dict n =>
      refine congrArg (· >>= _) (mapM_eq_of_forall₂ ((h.table n).imp fun p p' he => ?_))
      obtain ⟨key, e⟩ := p
      obtain ⟨rfl, he⟩ : key = p'.1 ∧ T e p'.2 := he
      simp only [ih he]
    | found matched => cases matched <;> rfl
    | _ => rfl

/-- Values that stand for each other have the same printed form. -/
theorem Alike.printed (f : Form) (hr : T r r') : s.printed f r = s'.printed f r' := by
  have hn := Nat.le_max_left s.cells.size s'.cells.size
  have hn' := Nat.le_max_right s.cells.size s'.cells.size
  rw [← s.printedTo_eq f (Nat.lt_succ_of_le hn), ← s'.printedTo_eq f (Nat.lt_succ_of_le hn')]
  exact h.printedTo f _ hr

theorem Alike.member (hr : T r r') : s.member r = s'.member r' := by
  have hp := h.payload r r' hr
  unfold Store.member
  rw [h.printed .plain hr]
  generalize (s.cell r).payload = p, (s'.cell r').payload = p' at hp
  cases hp with
  | _ => rfl

theorem Alike.membersOf {rs rs' : List Ref} (hr : List.Forall₂ T rs rs') : s.membersOf rs = s'.membersOf rs' := by
  unfold Store.membersOf
  rw [mapM_eq_of_forall₂ (hr.imp fun _ _ => h.member)]

end

end Store

namespace Matching

open Eval

variable {M : Matching} {n r r' : Nat} {w w' : World} {C : World → Prop} {α β γ : Type} {R : Nat → α → β → Prop}
  {f f' : Frame}

abbrev Same (_ : Nat) (a b : α) : Prop := a = b

theorem Worlds.alike (h : M.Worlds w w') : w.store.Alike (M.Twins w.size) w'.store :=
  ⟨fun r r' hr => (h.cells r r' hr).payload, h.table⟩

/-- A name that code may ask for: it is not the one that only the second world has. -/
def Asks (M : Matching) (name : String) : Prop := ∀ a ∈ M.apart, a.name ≠ name

def Binds (M : Matching) (f : Frame) (name : String) : Prop :=
  ∀ a ∈ M.apart, f.scopes.head? = some a.scope → a.name ≠ name

variable {name : String}

theorem Asks.binds (h : M.Asks name) (f : Frame) : M.Binds f name := fun a ha _ => h a ha

theorem Worlds.lookupIn (h : M.Worlds w w') {scopes scopes' : List Nat}
    (hs : List.Forall₂ (fun s s' => M.scopes.pairs s s' ∧ M.hides s' name = false) scopes scopes') :
    Option.Rel (Binding.Alike (M.Twins w.size)) (Scope.lookup name (scopes.map w.scope))
      (Scope.lookup name (scopes'.map w'.scope)) := by
  induction hs with
  | nil => exact .none
  | @cons s s' _ _ hi _ ih =>
    simp only [List.map_cons, Scope.lookup]
    have hb := (h.scopes s s' hi.1).get? name
    rw [Scope.get?_without hi.2] at hb
    generalize (w.scope s).get? name = b, (w'.scope s').get? name = b' at hb
    cases hb with
    | none => exact ih
    | some hb => exact .some hb

theorem Worlds.lookup (h : M.Worlds w w') (hf : M.Frames f f') (hn : M.Asks name) :
    Option.Rel (Binding.Alike (M.Twins w.size)) (w.store.lookup f name) (w'.store.lookup f' name) :=
  h.lookupIn (hf.scopes.imp fun _ _ hs => ⟨hs, hides_eq_false fun a ha _ => hn a ha⟩)

section

variable {x : Eval α} {y : Eval β}

variable (hw : M.Worlds w w')
include hw

theorem Meets.cell {g : Cell → Eval α} {g' : Cell → Eval β} (hr : M.Twins w.size r r')
    (h : ∀ c c', M.Cells w.size c c' → M.Meets C R (g c) (g' c') w w') :
    M.Meets C R (cell r >>= g) (cell r' >>= g') w w' :=
  h _ _ (hw.cells r r' hr)

theorem Meets.payload {g : Payload → Eval α} {g' : Payload → Eval β} (hr : M.Twins w.size r r')
    (h : ∀ p p', p.Alike (M.Twins w.size) p' → M.Meets C R (g p) (g' p') w w') :
    M.Meets C R (payload r >>= g) (payload r' >>= g') w w' :=
  h _ _ (hw.cells r r' hr).payload

theorem Meets.table {g : Table → Eval α} {g' : Table → Eval β} (i : Nat)
    (h : ∀ t t', Table.Alike (M.Twins w.size) t t' → M.Meets C R (g t) (g' t') w w') :
    M.Meets C R (table i >>= g) (table i >>= g') w w' :=
  h _ _ (hw.table i)

theorem Meets.store {g : Store → Eval α} {g' : Store → Eval β}
    (h : ∀ s s', s.Alike (M.Twins w.size) s' → M.Meets C R (g s) (g' s') w w') :
    M.Meets C R (store >>= g) (store >>= g') w w' :=
  h _ _ hw.alike

theorem Meets.lookup {g : Option Binding → Eval α} {g' : Option Binding → Eval β}
    (hf : M.Frames f f') {name : String} (hn : M.Asks name)
    (h : ∀ b b', Option.Rel (Binding.Alike (M.Twins w.size)) b b' → M.Meets C R (g b) (g' b') w w') :
    M.Meets C R (lookup f name >>= g) (lookup f' name >>= g') w w' :=
  h _ _ (hw.lookup hf hn)

theorem Meets.fault (e : Fault) : M.Meets C R (fault e) (fault e) w w' := .throw hw (.fault e)

theorem Meets.error {start stop start' stop' : Option Position} (details : String) :
    M.Meets C R (error start stop details levels) (error start' stop' details levels') w w' :=
  .throw hw (.error rfl rfl)

theorem Meets.lift {g : γ → Eval α} {g' : γ → Eval β} (x : Except Fault γ)
    (h : ∀ a, M.Meets C R (g a) (g' a) w w') : M.Meets C R (lift x >>= g) (lift x >>= g') w w' := by
  cases x with
  | ok a => exact h a
  | error e => exact .throw hw (.fault e)

theorem Meets.ofPrinting {g : γ → Eval α} {g' : γ → Eval β} {x y : Printing γ} (hx : x = y)
    (h : ∀ a, M.Meets C R (g a) (g' a) w w') : M.Meets C R (ofPrinting x >>= g) (ofPrinting y >>= g') w w' := by
  subst hx
  unfold Eval.ofPrinting
  split
  · exact .lift hw _ h
  · exact fun he => absurd rfl (he w)

theorem Meets.shown {g : String → Eval α} {g' : String → Eval β} (hr : M.Twins w.size r r')
    (h : ∀ a, M.Meets C R (g a) (g' a) w w') : M.Meets C R (shown r >>= g) (shown r' >>= g') w w' := by
  unfold Eval.shown
  rw [bind_assoc, bind_assoc]
  exact .store hw fun s s' hs => .ofPrinting hw (congrArg ExceptT.mk (hs.printed .plain hr)) h

end

variable (hw : M.Worlds w w') (hr : M.Twins w.size r r')

include hw

theorem alloc_steady {c c' : Cell} (hc : M.Cells w.size c c') : M.Agree (alloc c) (alloc c') w w' :=
  fun _ _ => .ok (by simp [World.size]) (hw.alloc hc).1 (hw.alloc hc).2

/-- A new value that cannot be called, wherever it was seen. -/
theorem allocPlain_steady {c c' : Cell} (hc : c.payload.isCallable = false)
    (hp : c.payload.Alike (M.Twins w.size) c'.payload) : M.Agree (alloc c) (alloc c') w w' :=
  alloc_steady hw ⟨hp, .plain hc _ _⟩

theorem fresh_steady {p p' : Payload} (hp : p.Alike (M.Twins w.size) p') : M.Agree (fresh p) (fresh p') w w' :=
  alloc_steady hw ⟨hp, .none⟩

theorem make_steady (hf : M.Frames f f') {p p' : Payload} (hp : p.Alike (M.Twins w.size) p')
    (span span' : Span) : M.Agree (make p span f) (make p' span' f') w w' :=
  alloc_steady hw ⟨hp, .some hf⟩

include hr

theorem copy_steady : M.Agree (copy r) (copy r') w w' :=
  alloc_steady hw (hw.cells r r' hr)

theorem modifyCell_steady {g g' : Cell → Cell} (hg : ∀ c c', M.Cells w.size c c' → M.Cells w.size (g c) (g' c')) :
    M.Steady Same (modifyCell r g) (modifyCell r' g') w w' :=
  fun _ _ => .ok (by simp [World.size]) (hw.modifyCell hr (hg _ _ (hw.cells r r' hr))) rfl

theorem place_steady (span span' : Span) : M.Agree (place r span) (place r' span') w w' :=
  Steady.bind (modifyCell_steady hw hr fun _ _ hc => ⟨hc.payload, hc.frame⟩) fun _ _ _ _ hn hv _ =>
    .pure hv (hr.mono hn)

theorem frameIn_steady (hf : M.Frames f f') : M.Agree (frameIn r f) (frameIn r' f') w w' :=
  Steady.bind (modifyCell_steady hw hr fun _ _ hc => ⟨hc.payload, .some hf⟩) fun _ _ _ _ hn hv _ =>
    .pure hv (hr.mono hn)

theorem framePlain_steady (hp : (w.cell r).payload.isCallable = false) (f f' : Frame) :
    M.Agree (frameIn r f) (frameIn r' f') w w' := by
  have hv := hw.modifyCell hr (f := fun c => { c with frame := some f }) (g := fun c => { c with frame := some f' })
    ⟨(hw.cells r r' hr).payload, .plain hp _ _⟩
  have hsize := w.size_modifyCell r fun c => { c with frame := some f }
  exact fun _ _ => .ok (Nat.le_of_eq hsize.symm) hv (hr.mono (Nat.le_of_eq hsize.symm))

omit hw hr

theorem newTable_steady (hw : M.Worlds w w') {t t' : Table} (ht : Table.Alike (M.Twins w.size) t t') :
    M.Steady Same (newTable t) (newTable t') w w' :=
  fun _ _ => .ok (Nat.le_refl _) (hw.newTable ht) hw.tables.size

/-- Scopes that were just made on both sides. -/
structure New (M : Matching) (i i' : Nat) : Prop where
  pairs : M.scopes.pairs i i'
  apart : ∀ a ∈ M.apart, i ≠ a.scope

theorem Worlds.new (h : M.Worlds w w') : M.New w.scopeCount w'.scopeCount := by
  refine ⟨h.spread.pairs, fun a ha heq => ?_⟩
  have hlt := (h.spread.lt_iff (M.inner a ha).1).2 (h.scope_lt ha)
  omega

theorem newScope_steady (hw : M.Worlds w w') : M.Steady (fun _ => M.New) newScope newScope w w' :=
  fun _ _ => .ok (Nat.le_refl _) hw.newScope hw.new

theorem New.frames {i i' : Nat} (h : M.New i i') (hf : M.Frames f f')
    (hl : levels.map Level.name = levels'.map Level.name) :
    M.Frames ⟨levels, i :: f.scopes⟩ ⟨levels', i' :: f'.scopes⟩ :=
  ⟨.cons h.pairs hf.scopes, hl⟩

theorem New.binds {i i' : Nat} (h : M.New i i') {outer : List Nat} (hf : f.scopes = i :: outer) (name : String) :
    M.Binds f name := by
  intro a ha he
  rw [hf] at he
  exact absurd (Option.some.inj he) (h.apart a ha)

theorem modifyScope_steady (hw : M.Worlds w w') {s s' : Nat} (hs : M.scopes.pairs s s')
    {g g' : Scope Binding → Scope Binding}
    (hg : ∀ x y, Scope.Alike (M.Twins w.size) x (y.without (M.hides s')) →
      Scope.Alike (M.Twins w.size) (g x) ((g' y).without (M.hides s')))
    (hown : ∀ a ∈ M.apart, a.scope' = s' → ∀ y, (g' y).get? a.name = y.get? a.name) :
    M.Steady Same (modifyScope s g) (modifyScope s' g') w w' :=
  fun _ _ => .ok (Nat.le_refl _) (hw.modifyScope hs hg hown) rfl

theorem record_steady (hw : M.Worlds w w') {e e' : Event} (he : e.isNoise = e'.isNoise) :
    M.Steady Same (record e) (record e') w w' :=
  fun _ _ => .ok (Nat.le_refl _) (hw.record he) rfl

theorem Frames.head (h : M.Frames f f') : Option.Rel M.scopes.pairs f.scopes.head? f'.scopes.head? := by
  have hs := h.scopes
  generalize f.scopes = scopes at hs ⊢
  generalize f'.scopes = scopes' at hs ⊢
  cases hs with
  | nil => exact .none
  | cons hs _ => exact .some hs

include hw

/-- A name is bound in the innermost scope; the scopes around it do not matter. -/
theorem bindHead_steady (hf : Option.Rel M.scopes.pairs f.scopes.head? f'.scopes.head?) (hn : M.Binds f name)
    {b b' : Binding} (hb : b.Alike (M.Twins w.size) b') :
    M.Steady Same (bind f name b) (bind f' name b') w w' := by
  unfold Eval.bind
  unfold Binds at hn
  generalize f.scopes = scopes at hf hn ⊢
  generalize f'.scopes = scopes' at hf ⊢
  cases scopes with
  | nil =>
    cases scopes' with
    | nil => exact .pure hw rfl
    | cons => cases hf
  | cons s outer =>
    cases scopes' with
    | nil => cases hf
    | cons s' outer' =>
      cases hf with
      | some hs =>
        -- a name that is bound in the scope of the list is not the name of the list
        have hne : ∀ a ∈ M.apart, a.scope' = s' → a.name ≠ name := fun a ha hs' =>
          hn a ha (congrArg some ((M.scopes.unique (M.inner a ha).1 hs).2 hs').symm)
        refine modifyScope_steady hw hs (fun x y hx => ?_) fun a ha hs' y => ?_
        · rw [Scope.set_without (hides_eq_false hne)]
          exact hx.set name hb
        · rw [Scope.get?_set, if_neg (hne a ha hs')]

theorem bind_steady (hf : M.Frames f f') (hn : M.Binds f name) {b b' : Binding} (hb : b.Alike (M.Twins w.size) b') :
    M.Steady Same (bind f name b) (bind f' name b') w w' :=
  bindHead_steady hw hf.head hn hb

theorem printLine_steady (s : String) : M.Steady Same (printLine s) (printLine s) w w' := by
  refine fun _ _ => .ok (Nat.le_refl _) ?_ rfl
  have h := hw.stream (w.out ++ s ++ "\n") w.input
  rwa [show ({ w' with out := w.out ++ s ++ "\n", input := w.input } : World) =
    { w' with out := w'.out ++ s ++ "\n" } by rw [hw.out, hw.input]] at h

theorem readLine_steady : M.Steady Same readLine readLine w w' := by
  refine Steady.bind (x := get) (y := get) (R := fun _ v v' => v.input = v'.input)
    (fun _ _ => .ok (Nat.le_refl _) hw hw.input) fun v v' u u' hn hu hv => ?_
  rw [← hv]
  dsimp only
  split
  · exact .fault hu _
  · refine Steady.bind (R := Same) (fun _ _ => .ok (Nat.le_refl _) ?_ rfl) fun _ _ t t' _ ht _ => ?_
    · have h := hu.stream u.out ((v.input.dropWhile (· != '\n')).drop 1)
      rwa [show ({ u' with out := u.out, input := (v.input.dropWhile (· != '\n')).drop 1 } : World) =
        { u' with input := (v.input.dropWhile (· != '\n')).drop 1 } by rw [hu.out]] at h
    · split
      · exact .throw ht .interrupt
      · exact .pure ht rfl

end Matching

end Utterance

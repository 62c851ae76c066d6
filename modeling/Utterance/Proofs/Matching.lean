import Utterance.Proofs.Alike
import Utterance.Proofs.Scopes

/-!
# Worlds in which values lie at other places

Two worlds are matched (`Matching.Worlds`) if they hold the same values, up to where these lie in the store, the
numbers of the scopes and the places of the source where something was seen: a value of the one world stands for one
of the other (`Matching.Twins`), and what both hold is the same up to that. The second world may have more. Some of
its values stand for none of the first (`Matching.kept`), and it may bind one name of its own in one scope (`Apart`);
then the built-in function `append`, which fills the list of that name, need not have been seen in the same frame.

Neither what is printed nor how a program goes on depends on the rest, as long as no module and no script fails, whose
report tells places of the source, and no function is given to an `append` that was seen elsewhere (`Matching.Calm`).
-/

namespace Utterance

open World List

variable {l l' : Loader LoadedModule} {name : String} {o o' : Option Frame} {p p' : Payload} {s s' : Scope Binding}
  {t t' : Table}

section

variable (T : Ref → Ref → Prop)

/-- The same contents, with references that stand for each other. -/
inductive Payload.Alike : Payload → Payload → Prop
  | number (s : Scalar) : Alike (.number s) (.number s)
  | string (s : Scalar) : Alike (.string s) (.string s)
  | list {es es'} : Forall₂ T es.toList es'.toList → Alike (.list es) (.list es')
  | tuple {es es'} : Forall₂ T es es' → Alike (.tuple es) (.tuple es')
  | set (ms : Members) : Alike (.set ms) (.set ms)
  | dict (n : Nat) : Alike (.dict n) (.dict n)
  | function (name : String) (params : List String) {body body' : Node} : body.Alike AnyPlace body' →
    Alike (.function name params body) (.function name params body')
  | builtin (b : Builtin) : Alike (.builtin b) (.builtin b)
  | regex (pattern : String) (compiled : Pattern.Compiled) : Alike (.regex pattern compiled) (.regex pattern compiled)
  | found (matched : Option String) : Alike (.found matched) (.found matched)
  | error (details title : String) : Alike (.error details title) (.error details title)

inductive Binding.Alike : Binding → Binding → Prop
  | value {r r'} : T r r' → Alike (.value r) (.value r')
  | member (m) : Alike (.member m) (.member m)

/-- The same keys with values that stand for each other. -/
def Table.Alike (t t' : Table) : Prop := Forall₂ (fun e e' => e.1 = e'.1 ∧ T e.2 e'.2) t t'

/-- The same name, bound to what stands for each other. -/
abbrev Scope.EntryAlike (e e' : Entry) : Prop := e.1 = e'.1 ∧ Option.Rel (Binding.Alike T) e.2 e'.2

/-- The same names, in the same order, bound to what stands for each other. -/
structure Scope.Alike (s s' : Scope Binding) : Prop where
  bindings : Forall₂ (Scope.EntryAlike T) s.bindings s'.bindings
  exports : s.exports = s'.exports

/-- The same signal: errors are the same up to their places. -/
inductive Signal.Alike : Signal → Signal → Prop
  | error {d d'} : d.title = d'.title → d.details = d'.details → Alike (.error d) (.error d')
  | give {r r'} : T r r' → Alike (.give r) (.give r')
  | cut : Alike .cut .cut
  | skip : Alike .skip .skip
  | fault (f) : Alike (.fault f) (.fault f)
  | exit : Alike .exit .exit
  | interrupt : Alike .interrupt .interrupt

end

section

variable {T T' : Ref → Ref → Prop}

theorem Payload.Alike.mono (h : p.Alike T p') (hT : ∀ r r', T r r' → T' r r') : p.Alike T' p' := by
  cases h with
  | list h => exact .list (h.imp hT)
  | tuple h => exact .tuple (h.imp hT)
  | function name params h => exact .function name params h
  | _ => constructor

theorem Binding.Alike.mono {b b' : Binding} (h : b.Alike T b') (hT : ∀ r r', T r r' → T' r r') : b.Alike T' b' := by
  cases h with
  | value h => exact .value (hT _ _ h)
  | member m => exact .member m

theorem Table.Alike.mono (h : Table.Alike T t t') (hT : ∀ r r', T r r' → T' r r') : Table.Alike T' t t' :=
  Forall₂.imp (fun _ _ h => ⟨h.1, hT _ _ h.2⟩) h

theorem Scope.Alike.mono (h : Scope.Alike T s s') (hT : ∀ r r', T r r' → T' r r') : Scope.Alike T' s s' := by
  refine ⟨h.bindings.imp fun ⟨_, b⟩ ⟨_, b'⟩ ⟨hn, hb⟩ => ⟨hn, ?_⟩, h.exports⟩
  cases hb with
  | none => exact .none
  | some hb => exact .some (hb.mono hT)

theorem Payload.Alike.symm (h : p.Alike T p') (hT : ∀ r r', T r r' → T' r' r) : p'.Alike T' p := by
  cases h with
  | list h => exact .list (forall₂_symm hT h)
  | tuple h => exact .tuple (forall₂_symm hT h)
  | function name params h => exact .function name params h.symm
  | _ => constructor

theorem Binding.Alike.symm {b b' : Binding} (h : b.Alike T b') (hT : ∀ r r', T r r' → T' r' r) : b'.Alike T' b := by
  cases h with
  | value h => exact .value (hT _ _ h)
  | member m => exact .member m

theorem Table.Alike.symm (h : Table.Alike T t t') (hT : ∀ r r', T r r' → T' r' r) : Table.Alike T' t' t :=
  forall₂_symm (fun _ _ h => ⟨h.1.symm, hT _ _ h.2⟩) h

theorem Scope.Alike.symm (h : Scope.Alike T s s') (hT : ∀ r r', T r r' → T' r' r) : Scope.Alike T' s' s :=
  ⟨forall₂_symm (fun _ _ hb => ⟨hb.1.symm, optionRel_symm (fun _ _ hb => hb.symm hT) hb.2⟩) h.bindings, h.exports.symm⟩

end

/-- Arrays of the same size with related elements; beyond their ends the elements count as `d`. -/
structure Pointwise {α : Type} (R : α → α → Prop) (d : α) (xs ys : Array α) : Prop where
  size : xs.size = ys.size
  get : ∀ i, R (xs.getD i d) (ys.getD i d)

namespace Pointwise

variable {α : Type} {R R' : α → α → Prop} {d x y : α} {xs ys : Array α}

variable (h : Pointwise R d xs ys)
include h

theorem mono (hR : ∀ a b, R a b → R' a b) : Pointwise R' d xs ys :=
  ⟨h.size, fun i => hR _ _ (h.get i)⟩

theorem symm (hR : ∀ a b, R a b → R' b a) : Pointwise R' d ys xs :=
  ⟨h.size.symm, fun i => hR _ _ (h.get i)⟩

theorem push (hx : R x y) : Pointwise R d (xs.push x) (ys.push y) := by
  refine ⟨by simp [h.size], fun i => ?_⟩
  have hi := h.get i
  simp only [Array.getD_eq_getD_getElem?, Array.getElem?_push, ← h.size] at hi ⊢
  split
  · exact hx
  · exact hi

theorem modify (n : Nat) {f g : α → α} (hf : ∀ a b, R a b → R (f a) (g b)) :
    Pointwise R d (xs.modify n f) (ys.modify n g) := by
  refine ⟨by simp [h.size], fun i => ?_⟩
  have hi := h.get i
  simp only [Array.getD_eq_getD_getElem?, Array.getElem?_modify] at hi ⊢
  split
  · rcases Nat.lt_or_ge i xs.size with hlt | hge
    · have hlt' : i < ys.size := h.size ▸ hlt
      simp only [Array.getElem?_eq_getElem hlt, Array.getElem?_eq_getElem hlt', Option.getD_some, Option.map_some]
        at hi ⊢
      exact hf _ _ hi
    · have hge' : ys.size ≤ i := h.size ▸ hge
      simpa [Array.getElem?_eq_none hge, Array.getElem?_eq_none hge'] using hi
  · exact hi

end Pointwise

namespace Scope

variable {β : Type} {hidden : String → Bool}

def without (hidden : String → Bool) (s : Scope β) : Scope β :=
  { s with bindings := s.bindings.filter fun e => !hidden e.1 }

theorem without_of_none (h : ∀ x, hidden x = false) (s : Scope β) : s.without hidden = s := by
  have hall : s.bindings.filter (fun e => !hidden e.1) = s.bindings := filter_eq_self.2 fun e _ => by simp [h]
  rw [without, hall]

theorem get?_without (h : hidden name = false) (s : Scope β) : (s.without hidden).get? name = s.get? name := by
  show ((s.bindings.filter _).lookup name).join = (s.bindings.lookup name).join
  congr 1
  induction s.bindings with
  | nil => rfl
  | cons e l ih =>
    rw [filter_cons, lookup_entry]
    by_cases hn : name = e.1
    · rw [if_pos (by simp [← hn, h]), lookup_entry, if_pos hn, if_pos hn]
    · rw [if_neg hn, ← ih]
      split
      · rw [lookup_entry, if_neg hn]
      · rfl

theorem set_without (h : hidden name = false) (s : Scope β) (v : Option β) :
    (s.set name v).without hidden = (s.without hidden).set name v := by
  have key (l : List (String × Option β)) : (bindIn name v l).filter (fun e => !hidden e.1) =
      bindIn name v (l.filter fun e => !hidden e.1) := by
    induction l with
    | nil => simp [bindIn, h]
    | cons e l ih =>
      obtain ⟨n, u⟩ := e
      have hcons (rest : List (String × Option β)) : bindIn name v ((n, u) :: rest) =
          if n = name then (n, v) :: rest else (n, u) :: bindIn name v rest := rfl
      rw [hcons, filter_cons]
      by_cases hn : n = name
      · simp [hn, h, bindIn]
      · cases hx : hidden n with
        | true => simp [hn, hx, ih]
        | false => simp [hn, hx, ih, hcons]
  exact congrArg (fun l => (⟨l, s.exports⟩ : Scope β)) (key s.bindings)

end Scope

/-! ### Renamings -/

/-- Numbers that stand for each other: none for two, and from some numbers on each for the next one. -/
structure Renaming where
  pairs : Nat → Nat → Prop
  left : Nat
  right : Nat
  unique : ∀ {a a' b b'}, pairs a a' → pairs b b' → (a = b ↔ a' = b')
  later : ∀ d, pairs (left + d) (right + d)

namespace Renaming

variable (ρ : Renaming) {a a' n n' : Nat}

/-- As many numbers are in use on both sides, after those of their own. -/
def Sized (n n' : Nat) : Prop := ∃ d, n = ρ.left + d ∧ n' = ρ.right + d

variable {ρ}

theorem Sized.next (h : ρ.Sized n n') : ρ.Sized (n + 1) (n' + 1) := by
  obtain ⟨d, rfl, rfl⟩ := h
  exact ⟨d + 1, by omega, by omega⟩

theorem Sized.pairs (h : ρ.Sized n n') : ρ.pairs n n' := by
  obtain ⟨d, rfl, rfl⟩ := h
  exact ρ.later d

theorem Sized.lt_iff (h : ρ.Sized n n') (ha : ρ.pairs a a') : a < n ↔ a' < n' := by
  obtain ⟨d, rfl, rfl⟩ := h
  constructor
  · intro hlt
    refine Nat.lt_of_not_le fun hge => ?_
    have := (ρ.unique ha (ρ.later (a' - ρ.right))).2 (by omega)
    omega
  · intro hlt
    refine Nat.lt_of_not_le fun hge => ?_
    have := (ρ.unique ha (ρ.later (a - ρ.left))).1 (by omega)
    omega

def refl : Renaming := ⟨Eq, 0, 0, fun ha hb => by rw [ha, hb], fun _ => rfl⟩

def swap (ρ : Renaming) : Renaming := ⟨flip ρ.pairs, ρ.right, ρ.left, fun ha hb => (ρ.unique ha hb).symm, ρ.later⟩

/-- The numbers below a bound stand for what they stood for, and later ones begin anew. -/
def resume (ρ : Renaming) (bound n n' : Nat) (h : ∀ a a', a < bound → ρ.pairs a a' → a < n ∧ a' < n') : Renaming where
  pairs a a' := a < bound ∧ ρ.pairs a a' ∨ ∃ d, a = n + d ∧ a' = n' + d
  left := n
  right := n'
  unique := by
    rintro a a' b b' (⟨hlt, ha⟩ | ⟨d, ha, ha'⟩) (⟨hlt', hb⟩ | ⟨e, hb, hb'⟩)
    · exact ρ.unique ha hb
    · have := h a a' hlt ha
      omega
    · have := h b b' hlt' hb
      omega
    · omega
  later d := .inr ⟨d, rfl, rfl⟩

end Renaming

def Event.isNoise : Event → Bool
  | .called b _ _ => b == some .run
  | .sharing _ => false
  | .shared _ _ => false
  | _ => true

/-- A list that only the second of two worlds has, and the name that it is bound to; the scope of the name is one of
both worlds. -/
structure Apart where
  scope : Nat
  scope' : Nat
  name : String
  list : Ref

/-! ### Matchings -/

/-- How the values and scopes of two worlds are matched. -/
structure Matching where
  values : Renaming
  scopes : Renaming
  apart : Option Apart
  /-- Values of the second world that stand for none of the first, as they are. -/
  kept : List (Ref × Cell)
  /-- How much was logged before in the first world and in the second. -/
  logged : Nat
  logged' : Nat
  given : ∀ r < 3, values.pairs r r
  global : scopes.pairs Store.globalScope Store.globalScope
  inner : ∀ a ∈ apart, scopes.pairs a.scope a.scope' ∧ a.scope ≠ Store.globalScope
  alone : ∀ e ∈ kept, ∀ r, ¬ values.pairs r e.1

namespace Matching

variable (M : Matching)

/-- References that stand for each other, the first one below a bound. -/
def Twins (n r r' : Nat) : Prop := r < n ∧ M.values.pairs r r'

/-- Frames in which names mean the same, with the same calls around them. -/
structure Frames (f f' : Frame) : Prop where
  scopes : Forall₂ M.scopes.pairs f.scopes f'.scopes
  names : f.levels.map Level.name = f'.levels.map Level.name

/-- Whether a value may be seen in other frames: only the function that fills the list. -/
def exempts : Payload → Bool
  | .builtin .append => M.apart.isSome
  | _ => false

/-- The frames of a value. They matter only if it can be called. -/
def Framed (p : Payload) (f f' : Option Frame) : Prop :=
  p.isCallable = true → if M.exempts p then f.isSome = true → f'.isSome = true else Option.Rel M.Frames f f'

/-- The same value, wherever it was seen. -/
structure Cells (n : Nat) (c c' : Cell) : Prop where
  payload : c.payload.Alike (M.Twins n) c'.payload
  frame : M.Framed c.payload c.frame c'.frame

/-- The names that only the second world binds in a scope. -/
def hides (scope' : Nat) (name : String) : Bool := M.apart.any fun a => a.scope' == scope' && a.name == name

/-- The same module; if a list is apart, in scopes below a bound that do not bind it. -/
structure Modules (n : Nat) (m m' : LoadedModule) : Prop where
  scopes : Forall₂ M.scopes.pairs (m.scope :: m.outer) (m'.scope :: m'.outer)
  apart : ∀ a ∈ M.apart, ∀ s ∈ m.scope :: m.outer, s ≠ a.scope ∧ s < n

structure Loaders (n : Nat) (l l' : Loader LoadedModule) : Prop where
  loading : l.loading = l'.loading
  cache : Forall₂ (fun e e' => e.1 = e'.1 ∧ M.Modules n e.2 e'.2) l.cache l'.cache

structure Worlds (w w' : World) : Prop where
  given : 3 ≤ w.size
  sized : M.values.Sized w.size w'.size
  spread : M.scopes.Sized w.scopeCount w'.scopeCount
  cells : ∀ r r', M.Twins w.size r r' → M.Cells w.size (w.cell r) (w'.cell r')
  kept : ∀ e ∈ M.kept, w'.cell e.1 = e.2
  tables : Pointwise (Table.Alike (M.Twins w.size)) [] w.store.tables w'.store.tables
  scopes : ∀ s s', M.scopes.pairs s s' →
    Scope.Alike (M.Twins w.size) (w.scope s) ((w'.scope s').without (M.hides s'))
  own : ∀ a ∈ M.apart, (w'.scope a.scope').get? a.name = some (.value a.list)
  out : w.out = w'.out
  input : w.input = w'.input
  files : w.files = w'.files
  loader : M.Loaders w.scopeCount w.loader w'.loader
  noise : w.log.countP Event.isNoise = w'.log.countP Event.isNoise
  logged : M.logged ≤ w.log.length
  logged' : M.logged' ≤ w'.log.length

/-- What tells more than is matched: the report of something that failed, or a function that is moved into the frame
of a call that may be another one. -/
def Spoils (s : Store) : Event → Prop
  | .failed _ => True
  | .called (some .append) _ args => M.apart.isSome = true ∧ ∃ r ∈ args, (s.cell r).payload.isCallable = true
  | _ => False

def Calm (w : World) : Prop := ∀ e ∈ w.log.take (w.log.length - M.logged), ¬ M.Spoils w.store e

variable {M} {n m r r' q q' s s' : Nat} {w w' v : World} {f f' : Frame} {c c' : Cell}

theorem Twins.mono (h : M.Twins n r r') (hn : n ≤ m) : M.Twins m r r' := ⟨Nat.lt_of_lt_of_le h.1 hn, h.2⟩

theorem Twins.eq_iff (h : M.Twins n r r') (hq : M.Twins m q q') : r = q ↔ r' = q' := M.values.unique h.2 hq.2

theorem Framed.some (h : M.Frames f f') : M.Framed p (some f) (some f') := by
  intro _
  split
  · exact fun _ => rfl
  · exact .some h

theorem Framed.none : M.Framed p none none := by
  intro _
  split
  · exact id
  · exact .none

theorem Framed.plain (h : p.isCallable = false) (o o' : Option Frame) : M.Framed p o o' := fun hp => by
  rw [h] at hp
  cases hp

theorem Framed.imp {N : Matching} (h : M.Framed p o o') (ha : M.apart.isSome = N.apart.isSome)
    (hf : p.isCallable = true → ∀ f ∈ o, ∀ f', M.Frames f f' → N.Frames f f') : N.Framed p o o' := by
  intro hp
  have hrel := h hp
  have hexempts : N.exempts p = M.exempts p := by
    unfold exempts
    split
    · exact ha.symm
    · rfl
  rw [hexempts]
  split at hrel
  · rwa [if_pos ‹_›]
  · rw [if_neg ‹_›]
    cases hrel with
    | none => exact Option.Rel.none
    | some hframes => exact Option.Rel.some (hf hp _ rfl _ hframes)

theorem Cells.mono (h : M.Cells n c c') (hn : n ≤ m) : M.Cells m c c' :=
  ⟨h.payload.mono fun _ _ hr => hr.mono hn, h.frame⟩

theorem Modules.mono {k k' : LoadedModule} (h : M.Modules n k k') (hn : n ≤ m) : M.Modules m k k' :=
  ⟨h.scopes, fun a ha s hs => ⟨(h.apart a ha s hs).1, Nat.lt_of_lt_of_le (h.apart a ha s hs).2 hn⟩⟩

theorem Loaders.mono (h : M.Loaders n l l') (hn : n ≤ m) : M.Loaders m l l' :=
  ⟨h.loading, h.cache.imp fun _ _ he => ⟨he.1, he.2.mono hn⟩⟩

theorem hides_eq_false {x : String} (h : ∀ a ∈ M.apart, a.scope' = s → a.name ≠ x) : M.hides s x = false := by
  unfold hides
  cases ha : M.apart with
  | none => rfl
  | some a =>
    rw [Option.any_some, Bool.and_eq_false_iff, beq_eq_false_iff_ne, beq_eq_false_iff_ne]
    exact (em (a.scope' = s)).elim (fun hs => .inr (h a ha hs)) .inl

namespace Worlds

variable (h : M.Worlds w w')
include h

theorem null : M.Twins w.size Store.null Store.null :=
  ⟨Nat.lt_of_lt_of_le (by decide) h.given, M.given _ (by decide)⟩

theorem lt_iff (hr : M.Twins n r r') : r < w.size ↔ r' < w'.size := h.sized.lt_iff hr.2

theorem table (i : Nat) : Table.Alike (M.Twins w.size) (w.store.table i) (w'.store.table i) :=
  h.tables.get i

theorem scope_alike (hs : M.scopes.pairs s s') (ha : ∀ a ∈ M.apart, a.scope' ≠ s') :
    Scope.Alike (M.Twins w.size) (w.scope s) (w'.scope s') := by
  have hrel := h.scopes s s' hs
  rwa [Scope.without_of_none fun _ => hides_eq_false fun a h heq => absurd heq (ha a h)] at hrel

theorem scope_lt {a : Apart} (ha : a ∈ M.apart) : a.scope' < w'.scopeCount := by
  refine Nat.lt_of_not_le fun hge => ?_
  have hown := h.own a ha
  rw [World.scope, Store.scope, Array.getD_eq_getD_getElem?, Array.getElem?_eq_none hge] at hown
  cases hown

end Worlds

/-! ### Changes of both worlds -/

theorem Worlds.alloc (h : M.Worlds w w') (hc : M.Cells w.size c c') :
    M.Worlds (w.alloc c) (w'.alloc c') ∧ M.Twins (w.alloc c).size w.size w'.size := by
  have hsize := w.size_alloc c
  have hle : w.size ≤ (w.alloc c).size := by omega
  have mono : ∀ r r', M.Twins w.size r r' → M.Twins (w.alloc c).size r r' := fun _ _ hr => hr.mono hle
  have hnew : M.Twins (w.alloc c).size w.size w'.size := ⟨by omega, h.sized.pairs⟩
  refine ⟨{ h with
    given := Nat.le_trans h.given hle
    sized := by rw [size_alloc, size_alloc]; exact h.sized.next
    cells := fun r r' hr => ?_
    kept := fun e he => ?_
    tables := h.tables.mono fun _ _ h => h.mono mono
    scopes := fun s s' hs => (h.scopes s s' hs).mono mono }, hnew⟩
  · -- no reference is the new one on one side only
    rw [cell_alloc, cell_alloc, if_congr (hr.eq_iff hnew) rfl rfl]
    split
    · exact hc.mono hle
    · next hne =>
      have hlt : r < w.size := by
        have := hr.1
        have : r ≠ w.size := fun heq => hne ((hr.eq_iff hnew).1 heq)
        omega
      exact (h.cells r r' ⟨hlt, hr.2⟩).mono hle
  · have hne : e.1 ≠ w'.size := fun heq => M.alone e he w.size (heq ▸ h.sized.pairs)
    rw [cell_alloc, if_neg hne]
    exact h.kept e he

theorem Worlds.modifyCell (h : M.Worlds w w') (hr : M.Twins w.size r r') {f g : Cell → Cell}
    (hf : M.Cells w.size (f (w.cell r)) (g (w'.cell r'))) :
    M.Worlds (w.modifyCell r f) (w'.modifyCell r' g) := by
  have hsize := w.size_modifyCell r f
  refine { h with
    given := by rw [hsize]; exact h.given
    sized := by rw [hsize, size_modifyCell]; exact h.sized
    cells := ?_
    kept := fun e he => ?_
    tables := by rw [hsize]; exact h.tables
    scopes := by rw [hsize]; exact h.scopes }
  · rw [hsize]
    intro q q' hq
    rw [cell_modifyCell, cell_modifyCell, if_congr (and_congr (hq.eq_iff hr) (h.lt_iff hr)) rfl rfl]
    split
    · next heq =>
      obtain rfl : q = r := (hq.eq_iff hr).2 heq.1
      rw [heq.1]
      exact hf
    · exact h.cells q q' hq
  · have hne : e.1 ≠ r' := fun heq => M.alone e he r (heq ▸ hr.2)
    rw [cell_modifyCell, if_neg fun hc => hne hc.1]
    exact h.kept e he

theorem Worlds.newTable (h : M.Worlds w w') (ht : Table.Alike (M.Twins w.size) t t') :
    M.Worlds (w.newTable t) (w'.newTable t') :=
  { h with tables := h.tables.push ht }

theorem Worlds.modifyTable (h : M.Worlds w w') (i : Nat) {f g : Table → Table}
    (hf : ∀ t t', Table.Alike (M.Twins w.size) t t' → Table.Alike (M.Twins w.size) (f t) (g t')) :
    M.Worlds (w.modifyTable i f) (w'.modifyTable i g) :=
  { h with tables := h.tables.modify i hf }

/-- A scope that was just made is like one that was not made yet. -/
theorem scope_push (w : World) (n : Nat) : w.newScope.scope n = w.scope n := by
  rcases Nat.lt_trichotomy n w.scopeCount with hlt | rfl | hgt
  · exact scope_newScope w hlt
  · simp [newScope, Store.scope]
  · have hge : ¬ n < w.scopeCount + 1 := by omega
    have hge' : ¬ n < w.scopeCount := by omega
    simp [newScope, Store.scope, hge, hge']

theorem Worlds.newScope (h : M.Worlds w w') : M.Worlds w.newScope w'.newScope := by
  have hsize := w.scopeCount_newScope
  exact { h with
    spread := by rw [hsize, scopeCount_newScope]; exact h.spread.next
    scopes := fun s s' hs => by rw [scope_push, scope_push]; exact h.scopes s s' hs
    own := fun a ha => by rw [scope_push]; exact h.own a ha
    loader := h.loader.mono (by omega) }

theorem scope_modify (w : World) (n i : Nat) (f : Scope Binding → Scope Binding) :
    (w.modifyScope n f).scope i =
      if i = n ∧ n < w.scopeCount then f (w.scope i) else w.scope i := by
  by_cases hi : i = n
  · subst hi
    by_cases hlt : i < w.scopeCount
    · rw [if_pos ⟨rfl, hlt⟩, scope_modifyScope_self w f hlt]
    · simp [modifyScope, Store.scope, hlt]
  · rw [if_neg fun h => hi h.1, scope_modifyScope_of_ne w f hi]

theorem Worlds.modifyScope (h : M.Worlds w w') (hs : M.scopes.pairs s s') {f g : Scope Binding → Scope Binding}
    (hf : ∀ x y, Scope.Alike (M.Twins w.size) x (y.without (M.hides s')) →
      Scope.Alike (M.Twins w.size) (f x) ((g y).without (M.hides s')))
    (hg : ∀ a ∈ M.apart, a.scope' = s' → ∀ y, (g y).get? a.name = y.get? a.name) :
    M.Worlds (w.modifyScope s f) (w'.modifyScope s' g) := by
  refine { h with
    spread := by rw [scopeCount_modifyScope, scopeCount_modifyScope]; exact h.spread
    scopes := fun i i' hi => ?_
    own := fun a ha => ?_
    loader := by rw [scopeCount_modifyScope]; exact h.loader }
  · rw [scope_modify, scope_modify,
      if_congr (and_congr (M.scopes.unique hi hs) (h.spread.lt_iff hs)) rfl rfl]
    split
    · next heq => obtain ⟨rfl, -⟩ := heq; exact hf _ _ (h.scopes i i' hi)
    · exact h.scopes i i' hi
  · rw [scope_modify]
    split
    · next heq => rw [hg a ha heq.1]; exact h.own a ha
    · exact h.own a ha

theorem Worlds.stream (h : M.Worlds w w') (out : String) (input : List Char) :
    M.Worlds { w with out := out, input := input } { w' with out := out, input := input } :=
  { h with out := rfl, input := rfl }

theorem Worlds.withLoader (h : M.Worlds w w') (hl : M.Loaders w.scopeCount l l') :
    M.Worlds { w with loader := l } { w' with loader := l' } :=
  { h with loader := hl }

theorem Worlds.record (h : M.Worlds w w') {e e' : Event} (he : e.isNoise = e'.isNoise) :
    M.Worlds (w.record e) (w'.record e') :=
  { h with
    noise := by
      show (e :: w.log).countP Event.isNoise = (e' :: w'.log).countP Event.isNoise
      rw [countP_cons, countP_cons, h.noise, he]
    logged := Nat.le_succ_of_le h.logged
    logged' := Nat.le_succ_of_le h.logged' }

def swap (M : Matching) : Matching where
  values := M.values.swap
  scopes := M.scopes.swap
  apart := none
  kept := []
  logged := M.logged'
  logged' := M.logged
  given := M.given
  global := M.global
  inner _ h := nomatch h
  alone _ h := nomatch h

theorem Worlds.twins_swap (h : M.Worlds w w') : M.swap.Twins w'.size r' r ↔ M.Twins w.size r r' :=
  ⟨fun hr => ⟨(h.sized.lt_iff hr.2).2 hr.1, hr.2⟩, fun hr => ⟨(h.sized.lt_iff hr.2).1 hr.1, hr.2⟩⟩

theorem Frames.swap (h : M.Frames f f') : M.swap.Frames f' f := ⟨forall₂_symm (fun _ _ hs => hs) h.scopes, h.names.symm⟩

theorem framed_swap (hM : M.apart = none) (hp : p'.isCallable = true → p.isCallable = true)
    (h : M.Framed p o o') : M.swap.Framed p' o' o := by
  intro hc
  have hno : M.exempts p = false := by
    unfold exempts
    split
    · rw [hM]; rfl
    · rfl
  have hno' : M.swap.exempts p' = false := by
    unfold exempts
    split <;> rfl
  have hrel := h (hp hc)
  rw [hno] at hrel
  rw [hno']
  exact optionRel_symm (fun _ _ hf => Frames.swap hf) hrel

/-- If the second world has nothing of its own, the worlds are also matched the other way round. -/
theorem Worlds.swap (h : M.Worlds w w') (hM : M.apart = none) : M.swap.Worlds w' w := by
  have twins : ∀ r r', M.Twins w.size r r' → M.swap.Twins w'.size r' r := fun _ _ => h.twins_swap.2
  have hplain (i : Nat) (t : Scope Binding) : t.without (M.swap.hides i) = t := Scope.without_of_none (fun _ => rfl) t
  have hcallable {p p' : Payload} {T : Ref → Ref → Prop} (hp : p.Alike T p') (hc : p'.isCallable = true) :
      p.isCallable = true := by
    cases hp with
    | function | builtin => rfl
    | _ => cases hc
  refine {
    given := ?_
    sized := ?_
    spread := ?_
    cells := fun r' r hr => ?_
    kept := fun _ he => nomatch he
    tables := h.tables.symm fun _ _ ht => ht.symm twins
    scopes := fun s' s hs => ?_
    own := fun _ ha => nomatch ha
    out := h.out.symm
    input := h.input.symm
    files := h.files.symm
    loader := ⟨h.loader.loading.symm, forall₂_symm (fun _ _ he => ⟨he.1.symm,
      forall₂_symm (fun _ _ hs => hs) he.2.scopes, fun _ ha => nomatch ha⟩) h.loader.cache⟩
    noise := h.noise.symm
    logged := h.logged'
    logged' := h.logged }
  · exact (h.sized.lt_iff (M.given 2 (by decide))).1 h.given
  · obtain ⟨d, hd, hd'⟩ := h.sized
    exact ⟨d, hd', hd⟩
  · obtain ⟨d, hd, hd'⟩ := h.spread
    exact ⟨d, hd', hd⟩
  · have hc := h.cells r r' (h.twins_swap.1 hr)
    exact ⟨hc.payload.symm twins, framed_swap hM (hcallable hc.payload) hc.frame⟩
  · rw [hplain]
    exact (h.scope_alike hs fun a ha => by rw [hM] at ha; cases ha).symm twins

theorem Calm.of_lasts (h : M.Calm v) (hl : Lasts w v) : M.Calm w := by
  intro e he hs
  refine h e ?_ ?_
  · obtain ⟨later, hlater⟩ := hl.log
    have hlog : M.logged < w.log.length := by
      refine Nat.lt_of_not_le fun hge => ?_
      rw [Nat.sub_eq_zero_of_le hge] at he
      cases he
    rw [← hlater, length_append, take_append]
    refine mem_append_right _ ?_
    rwa [show later.length + w.log.length - M.logged - later.length = w.log.length - M.logged by omega]
  · unfold Spoils at hs ⊢
    split at hs
    · exact trivial
    · obtain ⟨ha, r, hr, hp⟩ := hs
      exact ⟨ha, r, hr, hl.callable hp⟩
    · exact hs.elim

theorem Calm.record {e : Event} (h : M.Calm (w.record e)) (hl : M.logged ≤ w.log.length) : ¬ M.Spoils w.store e := by
  refine h e ?_
  show e ∈ (e :: w.log).take (w.log.length + 1 - M.logged)
  rw [show w.log.length + 1 - M.logged = (w.log.length - M.logged) + 1 by omega]
  exact mem_cons_self

end Matching

end Utterance

import Mathlib.Data.Set.Basic
import Utterance.Proofs.Bindings

/-!
# Four built-in functions change collections

A collection keeps what it holds in a stock: a dictionary in a table, which its copies share, and every other value in
its own cell. `Reaches.stocked` follows the stocks along everything that evaluation can do: a value keeps its stock
for good, and what is in a stock that exists stays the same, unless `append`, `pop`, `extend` or `remove` was executed
on a value with that stock (`Event.changes`). A call of one of these four changes the stock of its first argument
alone, as `Change` says.
-/

namespace Utterance

open Eval Store List World

variable {c : Call} {details : String} {k : Stock} {q : Ref} {v : World}

/-- Where a value keeps what it holds. -/
inductive Stock where
  | cell (r : Ref)
  | table (n : Nat)
deriving DecidableEq

/-- What is in a stock. -/
inductive Contents where
  | value (p : Payload)
  | entries (t : Table)

namespace Store

/-- The stock of a value; dictionaries with the same table share one. -/
def stockOf (s : Store) (r : Ref) : Stock :=
  match (s.cell r).payload with
  | .dict n => .table n
  | _ => .cell r

def contents (s : Store) : Stock → Contents
  | .cell r => .value (s.cell r).payload
  | .table n => .entries (s.table n)

def held (s : Store) (r : Ref) : Contents := s.contents (s.stockOf r)

def HasStock (s : Store) : Stock → Prop
  | .cell r => r < s.cells.size
  | .table n => n < s.tables.size

instance (s : Store) (k : Stock) : Decidable (s.HasStock k) :=
  match k with
  | .cell r => inferInstanceAs (Decidable (r < s.cells.size))
  | .table n => inferInstanceAs (Decidable (n < s.tables.size))

def Has (s : Store) (r : Ref) : Prop := r < s.cells.size ∧ s.HasStock (s.stockOf r)

instance (s : Store) (r : Ref) : Decidable (s.Has r) := inferInstanceAs (Decidable (_ ∧ _))

end Store

def Payload.isList : Payload → Bool
  | .list _ => true
  | _ => false

def Builtin.changing : List Builtin := [.append, .pop, .extend, .remove]

/-- The stock that an event can change: that of the list given to `append`, `pop` or `extend`, or of the dictionary
given to `remove`. -/
def Event.changes (s : Store) : Event → Option Stock
  | .called (some b) _ (r :: _) =>
    if b ∈ [Builtin.append, .pop, .extend] ∧ (s.cell r).payload.isList then some (.cell r)
    else if b = .remove ∧ ¬ s.stockOf r = .cell r then some (s.stockOf r)
    else none
  | _ => none

namespace Store

variable {s : Store} {r : Ref} {n : Nat}

theorem stockOf_dict (h : (s.cell r).payload = .dict n) : s.stockOf r = .table n := by rw [stockOf, h]

theorem stockOf_cases (s : Store) (r : Ref) :
    s.stockOf r = .cell r ∨ ∃ n, (s.cell r).payload = .dict n ∧ s.stockOf r = .table n := by
  cases hp : (s.cell r).payload with
  | dict n => exact .inr ⟨n, rfl, stockOf_dict hp⟩
  | _ =>
    left
    rw [stockOf, hp]

theorem stockOf_isList (h : (s.cell r).payload.isList = true) : s.stockOf r = .cell r := by
  rcases s.stockOf_cases r with hs | ⟨n, hp, -⟩
  · exact hs
  · rw [hp] at h
    cases h

theorem stockOf_congr {t : Store} (h : (t.cell r).payload = (s.cell r).payload) : t.stockOf r = s.stockOf r := by
  rw [stockOf, stockOf, h]

theorem lt_of_stock (h : (s.cell r).payload.isList = true ∨ s.stockOf r ≠ .cell r) : r < s.cells.size := by
  refine Nat.lt_of_not_le fun hr => ?_
  have hp : (s.cell r).payload = default := by
    rw [cell, Array.getD_eq_getD_getElem?, Array.getElem?_eq_none hr]
    rfl
  rcases h with h | h
  · rw [hp] at h
    cases h
  · exact h (by rw [stockOf, hp]; rfl)

end Store

/-! ### What is kept -/

/-- Every value keeps its stock, and what is in a stock stays, but for some stocks that may be changed. -/
structure KeepsBut (changed : Set Stock) (w w' : World) : Prop where
  cells : w.size ≤ w'.size
  tables : w.store.tables.size ≤ w'.store.tables.size
  list : ∀ {r}, (w.cell r).payload.isList = true → (w'.cell r).payload.isList = true
  stock : ∀ {r}, r < w.size → w'.store.stockOf r = w.store.stockOf r
  contents : ∀ {k}, k ∉ changed → w.store.HasStock k → w'.store.contents k = w.store.contents k

namespace KeepsBut

variable {w u : World} {S T : Set Stock}

section

variable (h : KeepsBut S w v)
include h

theorem mono (hS : S ⊆ T) : KeepsBut T w v :=
  ⟨h.cells, h.tables, h.list, h.stock, fun hk => h.contents fun hs => hk (hS hs)⟩

theorem hasStock (hk : w.store.HasStock k) : v.store.HasStock k := by
  cases k with
  | cell r => exact Nat.lt_of_lt_of_le hk h.cells
  | table n => exact Nat.lt_of_lt_of_le hk h.tables

theorem trans (h' : KeepsBut T v u) : KeepsBut (S ∪ T) w u where
  cells := Nat.le_trans h.cells h'.cells
  tables := Nat.le_trans h.tables h'.tables
  list hr := h'.list (h.list hr)
  stock hr := (h'.stock (Nat.lt_of_lt_of_le hr h.cells)).trans (h.stock hr)
  contents hk hw := by
    rw [h'.contents (fun ht => hk (.inr ht)) (h.hasStock hw), h.contents (fun hs => hk (.inl hs)) hw]

theorem held (hq : w.store.Has q) (hs : w.store.stockOf q ∉ S) : v.store.held q = w.store.held q := by
  rw [Store.held, Store.held, h.stock hq.1, h.contents hs hq.2]

/-- Values that share a stock hold the same, before and after. -/
theorem held_eq {r : Ref} (hq : w.store.Has q) (hr : w.store.Has r) (hs : w.store.stockOf q = w.store.stockOf r) :
    v.store.held q = v.store.held r ∧ w.store.held q = w.store.held r := by
  have hs' : v.store.stockOf q = v.store.stockOf r := by rw [h.stock hq.1, h.stock hr.1, hs]
  simp only [Store.held, hs, hs', and_self]

theorem changes {e : Event} (he : e.changes w.store = some k) : e.changes v.store = some k := by
  unfold Event.changes at he ⊢
  split at he
  · next b _ r _ =>
    split at he
    · next hb => rwa [if_pos ⟨hb.1, h.list hb.2⟩]
    · next hb =>
      split at he
      · next hr =>
        have hs := h.stock (lt_of_stock (.inr hr.2))
        have hne : ¬ b ∈ [Builtin.append, .pop, .extend] := by rw [hr.1]; decide
        rwa [if_neg fun hb => hne hb.1, if_pos ⟨hr.1, by rw [hs]; exact hr.2⟩, hs]
      · cases he
  · cases he

end

theorem of_same (hc : w.size ≤ v.size) (ht : w.store.tables.size ≤ v.store.tables.size)
    (hcell : ∀ r < w.size, (v.cell r).payload = (w.cell r).payload)
    (htable : ∀ n < w.store.tables.size, v.store.table n = w.store.table n) : KeepsBut ∅ w v where
  cells := hc
  tables := ht
  list hr := by rwa [hcell _ (lt_of_stock (.inl hr))]
  stock hr := stockOf_congr (hcell _ hr)
  contents {k} _ hk := by
    cases k with
    | cell r => rw [Store.contents, Store.contents, hcell r hk]
    | table n => rw [Store.contents, Store.contents, htable n hk]

theorem of_store_eq (h : v.store.cells = w.store.cells) (ht : v.store.tables = w.store.tables) : KeepsBut ∅ w v := by
  refine of_same (Nat.le_of_eq (congrArg Array.size h.symm)) (by rw [ht]) (fun r _ => ?_) fun n _ => ?_
  · exact congrArg (fun cells => (cells.getD r default).payload) h
  · rw [Store.table, Store.table, ht]

theorem of_modifyCell (w : World) (r : Ref) {f : Cell → Cell} (hf : ∀ c, (f c).payload = c.payload) :
    KeepsBut ∅ w (w.modifyCell r f) := by
  refine of_same (by simp) (Nat.le_refl _) (fun q _ => ?_) fun _ _ => rfl
  rw [cell_modifyCell]
  split
  · exact hf _
  · rfl

theorem of_alloc (w : World) (c : Cell) : KeepsBut ∅ w (w.alloc c) := by
  refine of_same (by simp) (Nat.le_refl _) (fun q hq => ?_) fun _ _ => rfl
  rw [cell_alloc, if_neg (Nat.ne_of_lt hq)]

theorem of_newTable (w : World) (t : Table) : KeepsBut ∅ w (w.newTable t) := by
  refine of_same (Nat.le_refl _) (by simp [World.newTable]) (fun _ _ => rfl) fun n hn => ?_
  unfold World.newTable Store.table
  rw [Array.getD_eq_getD_getElem?, Array.getD_eq_getD_getElem?, Array.getElem?_push_lt hn, Array.getElem?_eq_getElem hn]

/-- Changing the elements of a list changes its own stock; other values have no elements to change. -/
theorem of_mapElements (w : World) (r : Ref) (f : Array Ref → Array Ref) :
    KeepsBut {k | k = .cell r ∧ (w.cell r).payload.isList = true} w (w.modifyCell r (Cell.mapElements f)) := by
  by_cases hl : (w.cell r).payload.isList = true
  · have hcell (q : Ref) (hq : q ≠ r) : (w.modifyCell r (Cell.mapElements f)).cell q = w.cell q := by
      rw [cell_modifyCell, if_neg fun h => hq h.1]
    have hl' : ((w.modifyCell r (Cell.mapElements f)).cell r).payload.isList = true := by
      rw [cell_modifyCell, if_pos ⟨rfl, lt_of_stock (.inl hl)⟩, Cell.mapElements]
      split
      · rfl
      · exact hl
    refine ⟨by simp, Nat.le_refl _, fun {q} hq => ?_, fun {q} _ => ?_, fun {k} hk _ => ?_⟩
    · by_cases hqr : q = r
      · rwa [hqr]
      · rwa [hcell q hqr]
    · by_cases hqr : q = r
      · rw [hqr, stockOf_isList hl, stockOf_isList hl']
      · exact stockOf_congr (congrArg Cell.payload (hcell q hqr))
    · cases k with
      | table n => rfl
      | cell q => exact congrArg (Contents.value ·.payload) (hcell q fun hqr => hk ⟨by rw [hqr], hl⟩)
  · suffices KeepsBut ∅ w (w.modifyCell r (Cell.mapElements f)) from this.mono (Set.empty_subset _)
    refine of_same (by simp) (Nat.le_refl _) (fun q _ => ?_) fun _ _ => rfl
    rw [cell_modifyCell]
    split
    · next hq =>
      rw [Cell.mapElements]
      split
      · next hp => exact absurd (by rw [← hq.1, hp]; rfl) hl
      · rfl
    · rfl

theorem of_modifyTable (w : World) (n : Nat) (f : Table → Table) : KeepsBut {.table n} w (w.modifyTable n f) := by
  refine ⟨Nat.le_refl _, by simp [World.modifyTable], fun hr => hr, fun _ => rfl, fun {k} hk _ => ?_⟩
  cases k with
  | cell r => rfl
  | table m =>
    have hne : n ≠ m := fun h => hk (by rw [h]; rfl)
    rw [Store.contents, Store.contents, Store.table, Store.table, World.modifyTable]
    rw [Array.getD_eq_getD_getElem?, Array.getD_eq_getD_getElem?, Array.getElem?_modify, if_neg hne]

end KeepsBut

def changedBy (s : Store) (happened : List Event) : Set Stock := {k | ∃ e ∈ happened, e.changes s = some k}

/-- What happened between two worlds is on top of the log, and all stocks but those that it can change are kept. -/
def KeepsAfter (w w' : World) (happened : List Event) : Prop :=
  w'.log = happened ++ w.log ∧ KeepsBut (changedBy w'.store happened) w w'

namespace KeepsAfter

variable {w u w' : World} {first later happened : List Event}

theorem trans (h : KeepsAfter w v first) (h' : KeepsAfter v u later) : KeepsAfter w u (later ++ first) := by
  refine ⟨by rw [h'.1, h.1, append_assoc], (h.2.trans h'.2).mono ?_⟩
  rintro k (⟨e, he, hc⟩ | ⟨e, he, hc⟩)
  · exact ⟨e, mem_append_right _ he, h'.2.changes hc⟩
  · exact ⟨e, mem_append_left _ he, hc⟩

theorem of_keeps (hl : w'.log = happened ++ w.log) (h : KeepsBut ∅ w w') : KeepsAfter w w' happened :=
  ⟨hl, h.mono (Set.empty_subset _)⟩

end KeepsAfter

section

variable {b : Option Builtin} {frame inner : Frame} {args : List Ref} {w : World} (h : Enters frame b inner args w v)
include h

theorem Enters.payload (q : Ref) : (v.cell q).payload = (w.cell q).payload := by
  obtain ⟨u, hu, rfl⟩ := h.entered
  exact hu.payload q

theorem Enters.keeps : KeepsBut ∅ w v := by
  have hp := h.payload
  obtain ⟨u, hu, rfl⟩ := h.entered
  have htables : u.store.tables = w.store.tables := hu.tables
  refine .of_same (Nat.le_of_eq hu.cellCount.symm) (Nat.le_of_eq (congrArg Array.size htables.symm)) (fun q _ => hp q)
    fun n _ => ?_
  show u.store.tables.getD n [] = _
  rw [htables]
  rfl

theorem Enters.keepsAfter : KeepsAfter w v [.called b inner args] :=
  .of_keeps h.log h.keeps

end

/-- Whatever evaluation does, it changes only the stocks of values on which one of the four functions was executed. -/
theorem Reaches.keepsAfter {frame : Frame} {w w' : World} (h : Reaches frame w w') :
    ∃ happened, KeepsAfter w w' happened := by
  have same {w w' : World} (hl : w'.log = w.log) (hc : w'.store.cells = w.store.cells)
      (ht : w'.store.tables = w.store.tables) : ∃ happened, KeepsAfter w w' happened :=
    ⟨[], .of_keeps hl (.of_store_eq hc ht)⟩
  induction h with
  | refl | bind | stream | loader => exact same rfl rfl rfl
  | trans _ _ ih ih' =>
    obtain ⟨first, h₁⟩ := ih
    obtain ⟨later, h₂⟩ := ih'
    exact ⟨later ++ first, h₁.trans h₂⟩
  | alloc frame w c _ => exact ⟨[], .of_keeps rfl (.of_alloc w c)⟩
  | place frame w r span | reframe frame w r _ => exact ⟨[], .of_keeps rfl (.of_modifyCell w r fun _ => rfl)⟩
  | newTable frame w t => exact ⟨[], .of_keeps rfl (.of_newTable w t)⟩
  | sharing w _ => exact ⟨[.sharing _], .of_keeps rfl (.of_store_eq rfl rfl)⟩
  | shared w name _ => exact ⟨[.shared _ name], .of_keeps rfl (.of_store_eq rfl rfl)⟩
  | noted frame w e _ _ => exact ⟨[e], .of_keeps rfl (.of_store_eq rfl rfl)⟩
  | scope _ _ ih =>
    obtain ⟨happened, hl, hk⟩ := ih
    exact ⟨happened, hl, hk.cells, hk.tables, hk.list, hk.stock, hk.contents⟩
  | call he _ ih | run _ he _ ih =>
    obtain ⟨later, hv⟩ := ih
    exact ⟨_, he.keepsAfter.trans hv⟩
  | @elements frame b inner r args w v f hb he =>
    have hk := KeepsBut.of_mapElements v r f
    refine ⟨[.called (some b) inner (r :: args)], he.log, (he.keeps.trans hk).mono ?_⟩
    rintro k (hk' | ⟨rfl, hl⟩)
    · cases hk'
    · exact ⟨_, mem_singleton_self _, by rw [Event.changes, if_pos ⟨hb, hk.list hl⟩]⟩
  | @erase frame inner r args w v n key he hp =>
    refine ⟨[.called (some .remove) inner (r :: args)], he.log,
      (he.keeps.trans (KeepsBut.of_modifyTable v n (·.erase key))).mono ?_⟩
    rintro k (hk | rfl)
    · cases hk
    · have hs : (v.modifyTable n (·.erase key)).store.stockOf r = .table n := stockOf_dict hp
      refine ⟨_, mem_singleton_self _, ?_⟩
      rw [Event.changes, if_neg fun h => absurd h.1 (by decide), if_pos ⟨rfl, by rw [hs]; exact Stock.noConfusion⟩, hs]

/-! ### What is changed -/

/-- What a built-in function makes of the contents of its first argument, with its other argument. -/
inductive Change (s : Store) (a : Ref) : Builtin → Contents → Contents → Prop
  | append (es : Array Ref) : Change s a .append (.value (.list es)) (.value (.list (es.push a)))
  | pop {es i k} : (s.cell a).payload = .number i → scalarIndex? es.size i = some k →
    Change s a .pop (.value (.list es)) (.value (.list (es.eraseIdxIfInBounds k)))
  | extend {es more} : (s.cell a).payload = .list more →
    Change s a .extend (.value (.list es)) (.value (.list (es ++ more)))
  | remove {t key} : (s.cell a).payload = .number key ∨ (s.cell a).payload = .string key → (t.get? key).isSome = true →
    Change s a .remove (.entries t) (.entries (t.erase key))

/-- How a call of one of the four functions ends: it is refused; it changes the elements of a list; it takes an entry
out of a table; or it makes a set without a member. -/
inductive Changes (b : Builtin) (r a : Ref) (w : World) : Outcome Ref → Prop
  | refused (s : Signal) : Changes b r a w (.error s w)
  | elements {es} (x : Ref) (f : Array Ref → Array Ref) : (w.cell r).payload = .list es →
    Change w.store a b (.value (.list es)) (.value (.list (f es))) →
    Changes b r a w (.ok x (w.modifyCell r (Cell.mapElements f)))
  | entry {n} (x : Ref) (key : Scalar) : (w.cell r).payload = .dict n →
    Change w.store a b (.entries (w.store.table n)) (.entries ((w.store.table n).erase key)) →
    Changes b r a w (.ok x (w.modifyTable n (·.erase key)))
  | member {ms} (c : Cell) : b = .remove → (w.cell r).payload = .set ms →
    Changes b r a w (.ok w.size (w.alloc c))

section

variable {α : Type} {b : Builtin} {r a : Ref} {w : World}

/-- A computation ends as a call of one of the four functions. -/
def ChangesBy (b : Builtin) (r a : Ref) (w : World) (x : Eval Ref) : Prop := Changes b r a w (x w)

theorem ChangesBy.bind {x : Eval α} {k : α → Eval Ref} (hx : Reads x)
    (hk : ∀ y, x w = .ok y w → ChangesBy b r a w (k y)) : ChangesBy b r a w (x >>= k) := by
  have hw := hx w
  unfold ChangesBy at hk ⊢
  cases h : x w with
  | ok y v =>
    rw [h] at hw
    obtain rfl : v = w := hw
    rw [bind_ok h]
    exact hk y h
  | error s v =>
    rw [h] at hw
    obtain rfl : v = w := hw
    rw [bind_error h]
    exact .refused s

theorem list_ok {es : Array Ref} (h : c.list q details w = .ok es v) : (w.cell q).payload = .list es := by
  rw [Call.list, bind_ok (show payload q w = .ok (w.cell q).payload w from rfl)] at h
  cases hp : (w.cell q).payload <;> rw [hp] at h <;> cases h
  rfl

theorem number_ok {i : Scalar} (h : c.number q details w = .ok i v) : (w.cell q).payload = .number i := by
  rw [Call.number, bind_ok (show payload q w = .ok (w.cell q).payload w from rfl)] at h
  cases hp : (w.cell q).payload <;> rw [hp] at h <;> cases h
  rfl

theorem key_ok {key : Scalar} (h : c.key q w = .ok key v) :
    (w.cell q).payload = .number key ∨ (w.cell q).payload = .string key := by
  rw [Call.key, bind_ok (show payload q w = .ok (w.cell q).payload w from rfl)] at h
  cases hp : (w.cell q).payload <;> rw [hp] at h <;> cases h
  · exact .inl rfl
  · exact .inr rfl

/-- What the four functions do once their call was entered. -/
theorem builtin_changes (ev : Evaluator) (c : Call) (hb : b ∈ Builtin.changing) :
    Changes b r a w (builtin ev c b [r, a] w) := by
  show ChangesBy b r a w (builtin ev c b [r, a])
  simp only [Builtin.changing, mem_cons, List.not_mem_nil, or_false] at hb
  rcases hb with rfl | rfl | rfl | rfl
  · refine .bind (x := c.list r _) (c.list_reads r _) fun es hes => ?_
    exact Changes.elements null (·.push a) (list_ok hes) (.append es)
  · refine .bind (x := c.list r _) (c.list_reads r _) fun es hes =>
      .bind (x := c.number a _) (c.number_reads a _) fun i hi => ?_
    split
    · next k hk => exact Changes.elements _ (·.eraseIdxIfInBounds k) (list_ok hes) (.pop (number_ok hi) hk)
    · exact Changes.refused _
  · refine .bind (x := c.list r _) (c.list_reads r _) fun es hes =>
      .bind (x := c.list a _) (c.list_reads a _) fun more hmore => ?_
    exact Changes.elements null (· ++ more) (list_ok hes) (.extend (list_ok hmore))
  · refine .bind (x := cell r) (fun _ => rfl) fun cl hcl => ?_
    obtain rfl : w.cell r = cl := by injection hcl
    split
    · next n hp =>
      refine .bind (x := c.key a) (c.key_reads a) fun key hkey =>
        .bind (x := Eval.table n) (fun _ => rfl) fun t ht => ?_
      obtain rfl : w.store.table n = t := by injection ht
      split
      · next value hv => exact Changes.entry value key hp (.remove (key_ok hkey) (by rw [hv]; rfl))
      · exact .bind (lift_reads _) fun _ _ => Changes.refused _
    · next ms hp =>
      refine .bind (x := store) (fun _ => rfl) fun s hs => .bind ?_ fun m hm => ?_
      · unfold ofPrinting
        split
        · exact lift_reads _
        · exact Reads.throw _
      · split
        · exact Changes.member _ rfl hp
        · exact Changes.refused _
    · exact Changes.refused _

/-- A call of one of the four functions is refused, or it is entered and ends as `Changes` says. -/
theorem call_changing {g : Ref} (args : List Ref) (hg : (w.cell g).payload = .builtin b)
    (hb : b ∈ Builtin.changing) :
    (∃ s v, call evaluate g (r :: args) w = .error s v ∧ KeepsBut ∅ w v) ∨
    ∃ a frame v, args = [a] ∧ Enters default (some b) frame (r :: args) w v ∧
      Changes b r a v (call evaluate g (r :: args) w) := by
  have hparams : b.params.length = 2 := by
    simp only [Builtin.changing, mem_cons, List.not_mem_nil, or_false] at hb
    rcases hb with rfl | rfl | rfl | rfl <;> rfl
  have hc : call evaluate g (r :: args) w = (enterWith g (w.cell g) (some b) b.name b.params (r :: args) >>=
      fun frame => builtin evaluate ⟨(w.cell g).start, (w.cell g).stop, frame⟩ b (r :: args)) w := by
    unfold call
    rw [bind_ok (show cell g w = .ok (w.cell g) w from rfl), hg]
  rcases enterWith_cases default (some b) b.name b.params (r :: args) (by rw [hg]; rfl) with
    ⟨-, s, v, hv, hw⟩ | ⟨⟨-, hl⟩, frame, v, hv, hw⟩
  · refine .inl ⟨s, v, by rw [hc, bind_error hv], ?_⟩
    rcases hw with rfl | rfl <;> exact .of_store_eq rfl rfl
  · obtain ⟨a, rfl⟩ : ∃ a, args = [a] := length_eq_one_iff.1 (by simpa [hparams] using hl.symm)
    refine .inr ⟨a, frame, v, rfl, hw, ?_⟩
    rw [hc, bind_ok hv]
    exact builtin_changes evaluate _ hb

theorem Change.congr {s t : Store} {c c' : Contents} (h : Change s a b c c')
    (hp : (t.cell a).payload = (s.cell a).payload) : Change t a b c c' := by
  cases h with
  | append es => exact .append es
  | pop hi hk => exact .pop (hp.trans hi) hk
  | extend hm => exact .extend (hp.trans hm)
  | remove hk ht => exact .remove (by rwa [hp]) ht

/-- What the four functions change is in the stock of their first argument. -/
theorem Changes.keeps {o : Outcome Ref} (h : Changes b r a w o) : KeepsBut {w.store.stockOf r} w (after o) := by
  cases h with
  | refused s => exact (KeepsBut.of_store_eq rfl rfl).mono (Set.empty_subset _)
  | elements x f hp _ =>
    refine (KeepsBut.of_mapElements w r f).mono ?_
    rintro k ⟨rfl, hl⟩
    exact (stockOf_isList hl).symm
  | entry x key hp _ =>
    refine (KeepsBut.of_modifyTable w _ _).mono ?_
    rintro k rfl
    exact (stockOf_dict hp).symm
  | member c _ _ => exact (KeepsBut.of_alloc w c).mono (Set.empty_subset _)

/-- A call of one of the four functions that succeeds changes what its first argument holds, unless this is a set. -/
theorem Changes.change {x : Ref} (h : Changes b r a w (.ok x v)) (hr : w.store.Has r) :
    Change w.store a b (w.store.held r) (v.store.held r) ∨
      b = .remove ∧ (∃ ms, (w.store.cell r).payload = .set ms) ∧ v.store.held r = w.store.held r := by
  have hk : v.store.stockOf r = w.store.stockOf r := h.keeps.stock hr.1
  cases h with
  | @elements es x f hp hc =>
    have hl : (w.cell r).payload.isList = true := by rw [hp]; rfl
    have hs := stockOf_isList hl
    left
    rw [held, held, hk, hs, contents, contents, show (w.modifyCell r (Cell.mapElements f)).store.cell r = _ from
      cell_modifyCell w r r _, if_pos ⟨rfl, hr.1⟩, Cell.mapElements, hp]
    exact hc
  | @entry n x key hp hc =>
    have hs := stockOf_dict hp
    have hn : n < w.store.tables.size := by have := hr.2; rwa [hs] at this
    left
    have ht : (w.modifyTable n (·.erase key)).store.table n = (w.store.table n).erase key := by
      unfold World.modifyTable Store.table
      rw [Array.getD_eq_getD_getElem?, Array.getD_eq_getD_getElem?, Array.getElem?_modify, if_pos rfl,
        Array.getElem?_eq_getElem hn]
      rfl
    rw [held, held, hk, hs, contents, contents, ht]
    exact hc
  | @member ms c hb hp =>
    exact .inr ⟨hb, ⟨ms, hp⟩, (KeepsBut.of_alloc w c).held hr (Set.notMem_empty _)⟩

/-- Evaluation changes what a value holds only where `append`, `pop` or `extend` was executed on a list, or `remove`
on a dictionary, that has the same stock; a value keeps its stock for good. A call of one of these four functions
changes what exactly those values hold that share the stock of its first argument, if it changes anything: where it
succeeds it makes of this argument what `Change` says, but for `remove` on a set, which makes another set. -/
theorem held_changes (w : World) :
    (∀ node frame, Ends (evaluate node frame w) →
      ∃ happened, (after (evaluate node frame w)).log = happened ++ w.log ∧
        ∀ q, w.store.Has q → (after (evaluate node frame w)).store.stockOf q = w.store.stockOf q ∧
          (w.store.stockOf q ∉ changedBy (after (evaluate node frame w)).store happened →
            (after (evaluate node frame w)).store.held q = w.store.held q)) ∧
    ∀ g b r args, (w.cell g).payload = .builtin b → b ∈ Builtin.changing → w.store.Has r →
      (∀ q, w.store.Has q → ((after (call evaluate g (r :: args) w)).store.held q ≠ w.store.held q ↔
        w.store.stockOf q = w.store.stockOf r ∧
          (after (call evaluate g (r :: args) w)).store.held r ≠ w.store.held r)) ∧
      ∀ x v, call evaluate g (r :: args) w = .ok x v →
        (∃ a, args = [a] ∧ Change w.store a b (w.store.held r) (v.store.held r)) ∨
          b = .remove ∧ (∃ ms, (w.cell r).payload = .set ms) ∧ v.store.held r = w.store.held r := by
  constructor
  · intro node frame he
    obtain ⟨happened, hl, hk⟩ := (evaluate_moves node frame w he).keepsAfter
    exact ⟨happened, hl, fun q hq => ⟨hk.stock hq.1, hk.held hq⟩⟩
  · intro g b r args hg hb hr
    have hcases := call_changing (r := r) args hg hb
    have hkeeps : KeepsBut {w.store.stockOf r} w (after (call evaluate g (r :: args) w)) := by
      rcases hcases with ⟨s, v, hv, hk⟩ | ⟨a, frame, v, rfl, hv, hc⟩
      · rw [hv]
        exact hk.mono (Set.empty_subset _)
      · have hs : v.store.stockOf r = w.store.stockOf r := Store.stockOf_congr (hv.payload r)
        rw [← hs]
        exact (hv.keeps.trans hc.keeps).mono (Set.empty_union _).subset
    refine ⟨fun q hq => ⟨fun hne => ?_, fun ⟨hs, hne⟩ => ?_⟩, fun x v hx => ?_⟩
    · have hs : w.store.stockOf q = w.store.stockOf r := by
        by_contra hs
        exact hne (hkeeps.held hq hs)
      obtain ⟨h₁, h₂⟩ := hkeeps.held_eq hq hr hs
      exact ⟨hs, by rwa [h₁, h₂] at hne⟩
    · obtain ⟨h₁, h₂⟩ := hkeeps.held_eq hq hr hs
      rwa [h₁, h₂]
    · rcases hcases with ⟨s, u, hu, -⟩ | ⟨a, frame, u, rfl, hu, hc⟩
      · rw [hu] at hx
        cases hx
      · rw [hx] at hc
        have hs : u.store.stockOf r = w.store.stockOf r := Store.stockOf_congr (hu.payload r)
        have hheld : u.store.held r = w.store.held r := hu.keeps.held hr (Set.notMem_empty _)
        have hru : u.store.Has r := ⟨Nat.lt_of_lt_of_le hr.1 hu.keeps.cells, by rw [hs]; exact hu.keeps.hasStock hr.2⟩
        rcases hc.change hru with hc | ⟨hb, ⟨ms, hp⟩, hh⟩
        · rw [hheld] at hc
          exact .inl ⟨a, rfl, hc.congr (hu.payload a).symm⟩
        · exact .inr ⟨hb, ⟨ms, by rw [← hu.payload r, hp]⟩, hh.trans hheld⟩

end

/-- A world with a dictionary, a copy of it, a list that holds it, one of its keys, and the function `remove`. -/
def sharingWorld : World where
  store := ⟨#[.fresh (.number (.int 1)), .fresh (.dict 0), .fresh (.dict 0), .fresh (.list #[1]),
    .fresh (.string (.text "k")), ⟨.builtin .remove, none, none, some (programFrame "main")⟩],
    #[[(.text "k", 0)]], #[.empty]⟩
  out := ""
  input := []
  files := ⟨"", [], "", []⟩
  loader := .empty
  log := []

/-- Taking the key out of the dictionary takes it out of the copy, and the list holds what it held. -/
theorem held_changes_sharing :
    ∃ x v, call evaluate 5 [1, 4] sharingWorld = .ok x v ∧ v.store.held 2 ≠ sharingWorld.store.held 2 ∧
      v.store.held 3 = sharingWorld.store.held 3 := by
  have run : ∃ x v, call (evaluateTo 1) 5 [1, 4] sharingWorld = .ok x v ∧ v.store.held 1 = .entries [] :=
    ⟨_, _, rfl, rfl⟩
  obtain ⟨x, v, hv, hheld⟩ := run
  have hcall : call evaluate 5 [1, 4] sharingWorld = .ok x v :=
    (call_approximates (evaluateTo_approximates 1) 5 [1, 4]).eq_of_ok hv
  have hchanged : v.store.held 1 ≠ sharingWorld.store.held 1 := by
    rw [hheld]
    show Contents.entries [] ≠ .entries [(.text "k", 0)]
    simp
  have h := ((held_changes sharingWorld).2 5 .remove 1 [4] rfl (by decide) (by decide)).1
  rw [hcall] at h
  refine ⟨x, v, hcall, (h 2 (by decide)).2 ⟨rfl, hchanged⟩, ?_⟩
  by_contra hne
  exact absurd ((h 3 (by decide)).1 hne).1 (by decide)

end Utterance

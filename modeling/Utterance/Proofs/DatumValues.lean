import Mathlib.Data.List.Forall2
import Utterance.Proofs.Datum
import Utterance.Proofs.Operations

/-!
# The values of data

A tree gives a datum if in every world it evaluates to a value that is the datum, and changes nothing that was there
before. `Gives` is closed under the ways in which data are written: literals, signs and collections.
-/

namespace Utterance

open List World

variable {w : World} {r : Ref} {node : Node} {n : Int} {pairs : List (Node × Node)} {es : List (Key × Datum)}

/-- All cells and tables of a store are as they were in another one. -/
structure Store.Extends (s s' : Store) : Prop where
  cells : s.cells.size ≤ s'.cells.size
  tables : s.tables.size ≤ s'.tables.size
  cell : ∀ r < s.cells.size, s'.cell r = s.cell r
  table : ∀ n < s.tables.size, s'.table n = s.table n

namespace Store.Extends

variable {s s' s'' : Store}

theorem refl (s : Store) : s.Extends s := ⟨Nat.le_refl _, Nat.le_refl _, fun _ _ => rfl, fun _ _ => rfl⟩

theorem trans (h : s.Extends s') (h' : s'.Extends s'') : s.Extends s'' where
  cells := Nat.le_trans h.cells h'.cells
  tables := Nat.le_trans h.tables h'.tables
  cell r hr := (h'.cell r (Nat.lt_of_lt_of_le hr h.cells)).trans (h.cell r hr)
  table n hn := (h'.table n (Nat.lt_of_lt_of_le hn h.tables)).trans (h.table n hn)

theorem alloc (w : World) (c : Cell) : w.store.Extends (w.alloc c).store where
  cells := by simp
  tables := Nat.le_refl _
  cell r hr := (cell_alloc w c r).trans (if_neg (Nat.ne_of_lt hr))
  table _ _ := rfl

theorem newTable (w : World) (t : Table) : w.store.Extends (w.newTable t).store where
  cells := Nat.le_refl _
  tables := by simp [World.newTable]
  cell _ _ := rfl
  table n hn := by
    rw [Store.table, Store.table, World.newTable, Array.getD_eq_getD_getElem?, Array.getD_eq_getD_getElem?,
      Array.getElem?_push_lt hn, Array.getElem?_eq_getElem hn]

theorem keeps {v : World} (h : w.store.Extends v.store) : KeepsBut ∅ w v :=
  .of_same h.cells h.tables (fun r hr => congrArg Cell.payload (h.cell r hr)) h.table

end Store.Extends

variable {v : World}

theorem KeepsBut.payload_eq (h : KeepsBut ∅ w v) (hr : r < w.size) {p : Payload}
    (hp : (w.cell r).payload = p) : r < v.size ∧ (v.cell r).payload = p :=
  ⟨Nat.lt_of_lt_of_le hr h.cells, (h.payload hr (Set.notMem_empty _)).trans hp⟩

mutual

theorem Denotes.kept (h : KeepsBut ∅ w v) : {d : Datum} → {r : Ref} → Denotes w.store d r → Denotes v.store d r
  | .int _, _, ⟨hr, hp⟩ => h.payload_eq hr hp
  | .text _, _, ⟨hr, hp⟩ => h.payload_eq hr hp
  | .list _, _, ⟨hr, rs, hp, hd⟩ => ⟨(h.payload_eq hr hp).1, rs, (h.payload_eq hr hp).2, hd.kept h⟩
  | .tuple _, _, ⟨hr, rs, hp, hd⟩ => ⟨(h.payload_eq hr hp).1, rs, (h.payload_eq hr hp).2, hd.kept h⟩
  | .dict _, _, ⟨hr, n, hp, hn, hd⟩ => ⟨(h.payload_eq hr hp).1, n, (h.payload_eq hr hp).2,
      Nat.lt_of_lt_of_le hn h.tables, h.table hn (Set.notMem_empty _) ▸ hd.kept h⟩

theorem DenoteAll.kept (h : KeepsBut ∅ w v) :
    {ds : List Datum} → {rs : List Ref} → DenoteAll w.store ds rs → DenoteAll v.store ds rs
  | [], _, hnil => hnil
  | _ :: _, _, ⟨r, rest, hrs, hd, hds⟩ => ⟨r, rest, hrs, hd.kept h, hds.kept h⟩

theorem DenoteEntries.kept (h : KeepsBut ∅ w v) :
    {es : List (Key × Datum)} → {t : Table} → DenoteEntries w.store es t → DenoteEntries v.store es t
  | [], _, hnil => hnil
  | (_, _) :: _, _, ⟨r, rest, ht, hd, hes⟩ => ⟨r, rest, ht, hd.kept h, hes.kept h⟩

end

open Eval

/-- In every world a tree evaluates to a value that is a datum, and what was there before stays as it was. -/
def Gives (node : Node) (d : Datum) : Prop :=
  ∀ frame w, ∃ r w', evaluate node frame w = .ok r w' ∧ w.store.Extends w'.store ∧ Denotes w'.store d r

def Key.datum : Key → Datum
  | int n => .int n
  | text s => .text s

variable {span : Span} {nodes : List Node} {ds : List Datum}

variable {t : Token}

theorem gives_int (h : t.value = .int n) : Gives (.number span t) (.int n) := by
  intro frame w
  have hmade : step evaluate (.number span t) frame w = .ok w.size (w.alloc _) := rfl
  exact ⟨_, _, evaluate_ok hmade, .alloc w _, lt_alloc_size w _, by rw [cell_alloc_size, h]⟩

theorem gives_text {s : String} (h : t.value = .text s) : Gives (.string span t) (.text s) := by
  intro frame w
  have hmade : step evaluate (.string span t) frame w = .ok w.size (w.alloc _) := rfl
  exact ⟨_, _, evaluate_ok hmade, .alloc w _, lt_alloc_size w _, by rw [cell_alloc_size, h]⟩

theorem gives_minus (ht : t.kind = .minus) (h : Gives node (.int n)) : Gives (.unary span t node) (.int (-n)) := by
  intro frame w
  obtain ⟨r, v, hr, he, -, hp⟩ := h frame w
  have hneg : unary t r v = .ok v.size (v.alloc ⟨.number (.int (-n)), none, none, (v.cell r).frame⟩) := by
    unfold unary negate
    rw [ht]
    dsimp only
    rw [bind_ok (show cell r v = .ok (v.cell r) v from rfl), mul, hp]
    show Eval.resultOf (v.cell r) (.number (.int (n * -1))) v = _
    rw [Int.mul_neg_one]
    rfl
  have hstep : step evaluate (.unary span t node) frame w = .ok v.size
      (v.alloc ⟨.number (.int (-n)), some span.start, some span.stop, (v.cell r).frame⟩) := by
    show (evaluate node frame >>= fun r => unary t r >>= fun q => place q span) w = _
    rw [bind_ok hr, bind_ok hneg]
    exact congrArg (EStateM.Result.ok _) (modifyCell_alloc v _ _)
  refine ⟨_, _, evaluate_ok hstep, he.trans (.alloc v _), lt_alloc_size v _, ?_⟩
  rw [cell_alloc_size]

section

variable (h : Forall₂ Gives nodes ds)
include h

theorem mapM_gives (frame : Frame) (w : World) :
    ∃ rs w', nodes.mapM (evaluate · frame) w = .ok rs w' ∧ w.store.Extends w'.store ∧ DenoteAll w'.store ds rs := by
  induction h generalizing w with
  | nil => exact ⟨[], w, rfl, .refl _, rfl⟩
  | cons hd _ ih =>
    obtain ⟨r, v, hr, he, hrd⟩ := hd frame w
    obtain ⟨rs, u, hrs, he', hds⟩ := ih v
    refine ⟨r :: rs, u, ?_, he.trans he', r, rs, rfl, hrd.kept he'.keeps, hds⟩
    rw [mapM_cons, bind_ok hr, bind_ok hrs]
    rfl

theorem gives_list : Gives (.list span nodes) (.list ds) := by
  intro frame w
  obtain ⟨rs, v, hrs, he, hds⟩ := mapM_gives h frame w
  have hstep : step evaluate (.list span nodes) frame w = .ok v.size
      (v.alloc ⟨.list rs.toArray, some span.start, some span.stop, some frame⟩) := bind_ok hrs
  refine ⟨_, _, evaluate_ok hstep, he.trans (.alloc v _), lt_alloc_size v _, rs.toArray, ?_,
    hds.kept (.of_alloc v _)⟩
  rw [cell_alloc_size]

theorem gives_tuple : Gives (.tuple span nodes) (.tuple ds) := by
  intro frame w
  obtain ⟨rs, v, hrs, he, hds⟩ := mapM_gives h frame w
  have hstep : step evaluate (.tuple span nodes) frame w = .ok v.size
      (v.alloc ⟨.tuple rs, some span.start, some span.stop, some frame⟩) := bind_ok hrs
  refine ⟨_, _, evaluate_ok hstep, he.trans (.alloc v _), lt_alloc_size v _, rs, ?_, hds.kept (.of_alloc v _)⟩
  rw [cell_alloc_size]

end

def GivesEntry (pair : Node × Node) (e : Key × Datum) : Prop := Gives pair.1 e.1.datum ∧ Gives pair.2 e.2

theorem same_scalar {k k' : Key} (h : k ≠ k') : k.scalar.same k'.scalar = false := by
  cases k with
  | int n => cases k' with
    | int n' =>
      have hn : n ≠ n' := fun hn => h (by rw [hn])
      simp [Key.scalar, Scalar.same, Scalar.equal, Scalar.isNaN, hn]
    | text s => rfl
  | text s => cases k' with
    | int n => rfl
    | text s' =>
      have hs : s ≠ s' := fun hs => h (by rw [hs])
      simp [Key.scalar, Scalar.same, Scalar.equal, Scalar.isNaN, hs]

theorem set_new {t : Table} {key : Scalar} (h : ∀ e ∈ t, e.1.same key = false) (r : Ref) :
    t.set key r = t ++ [(key, r)] := by
  unfold Table.set
  rw [if_neg]
  simpa using h

/-- Pairs are put into a table one after the other, if no key is there already. -/
theorem entries_gives
    (h : Forall₂ GivesEntry pairs es) (frame : Frame) (w : World) (t : Table) (hnew : (es.map Prod.fst).Nodup)
    (ht : ∀ e ∈ t, ∀ k ∈ es.map Prod.fst, e.1.same k.scalar = false) :
    ∃ t' w', entries evaluate frame t pairs w = .ok (t ++ t') w' ∧ w.store.Extends w'.store ∧
      DenoteEntries w'.store es t' := by
  induction h generalizing w t with
  | nil => exact ⟨[], w, by rw [append_nil]; rfl, .refl _, rfl⟩
  | @cons pair e pairs es hd _ ih =>
    obtain ⟨key, value⟩ := pair
    obtain ⟨k, d⟩ := e
    obtain ⟨r, v, hr, he, hrd⟩ := hd.1 frame w
    obtain ⟨q, u, hq, he', hqd⟩ := hd.2 frame v
    rw [map_cons, nodup_cons] at hnew
    have hset : t.set k.scalar q = t ++ [(k.scalar, q)] := set_new (fun e hm => ht e hm k (by simp)) q
    obtain ⟨t', x, hrest, he'', hes⟩ := ih u (t ++ [(k.scalar, q)]) hnew.2 (by
      intro e hm k' hk'
      rcases mem_append.1 hm with hm | hm
      · exact ht e hm k' (by rw [map_cons]; exact mem_cons_of_mem _ hk')
      · obtain rfl := mem_singleton.1 hm
        exact same_scalar fun hk => hnew.1 (hk ▸ hk'))
    refine ⟨(k.scalar, q) :: t', x, ?_, he.trans (he'.trans he''), q, t', rfl, hqd.kept he''.keeps, hes⟩
    rw [append_assoc] at hrest
    rw [entries, bind_ok hr, bind_ok hq]
    have hkey : Denotes u.store k.datum r := hrd.kept he'.keeps
    have hpayload : payload r u = .ok (u.cell r).payload u := rfl
    rw [bind_ok hpayload]
    cases k with
    | int | text =>
      rw [hkey.2]
      exact (congrArg (entries evaluate frame · pairs u) hset).trans hrest

theorem gives_dict (h : Forall₂ GivesEntry pairs es)
    (hnew : (es.map Prod.fst).Nodup) : Gives (.dict span pairs) (.dict es) := by
  intro frame w
  obtain ⟨t, v, ht, he, hes⟩ := entries_gives h frame w [] hnew (fun _ hm => nomatch hm)
  let u := v.newTable t
  let c : Cell := ⟨.dict v.store.tables.size, some span.start, some span.stop, some frame⟩
  have hstep : step evaluate (.dict span pairs) frame w = .ok u.size (u.alloc c) := bind_ok ht
  have htable : u.store.table v.store.tables.size = t := by
    rw [Store.table, Array.getD_eq_getD_getElem?]
    show ((v.store.tables.push t)[v.store.tables.size]?).getD [] = t
    rw [Array.getElem?_push_size]
    rfl
  have hgrows : v.store.Extends (u.alloc c).store := (Store.Extends.newTable v t).trans (.alloc u _)
  refine ⟨_, _, evaluate_ok hstep, he.trans hgrows, lt_alloc_size u _, v.store.tables.size, ?_, ?_, ?_⟩
  · rw [cell_alloc_size]
  · show v.store.tables.size < (v.store.tables.push t).size
    rw [Array.size_push]
    exact Nat.lt_succ_self _
  · exact htable.symm ▸ hes.kept hgrows.keeps

end Utterance

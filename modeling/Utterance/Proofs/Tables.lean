import Mathlib.Data.List.Nodup
import Utterance.Proofs.Operations

/-!
# Tables of dictionaries

A table never has two entries with the same key (`Table.Distinct`). It is made entry by entry, by a literal or by
setting a key in a copy, and from then on entries can only be taken out of it, whatever is evaluated
(`Reaches.table_sublist`). So every dictionary that is made by literals, `+` and `-` has a distinct table
(`Produced.distinct`).

If the keys are integers and texts, they are the same exactly if they are equal (`Scalar.IsKey.same_iff`), and a table
is a list of pairs without repetitions, with the usual laws of looking up, setting and erasing.
-/

namespace Utterance

open Eval List

variable {frame : Frame} {key : Scalar} {t t' : Table} {u w : World}

namespace Table

def Distinct (t : Table) : Prop := t.Pairwise fun a b => a.1.same b.1 = false

theorem fst_replaced (key : Scalar) (value : Ref) (e : Scalar × Ref) :
    (if e.1.same key then (e.1, value) else e).1 = e.1 := by
  split <;> rfl

namespace Distinct

theorem nil : Distinct [] := List.Pairwise.nil

theorem sublist (h : Distinct t) (hs : t'.Sublist t) : Distinct t' := List.Pairwise.sublist hs h

theorem set (h : Distinct t) (key : Scalar) (value : Ref) : Distinct (t.set key value) := by
  unfold Table.set
  split
  · -- the keys are those of the table
    refine pairwise_map.2 (h.imp fun {a b} hab => ?_)
    rwa [fst_replaced, fst_replaced]
  · next hnone =>
    refine pairwise_append.2 ⟨h, pairwise_singleton _ _, fun a ha b hb => ?_⟩
    obtain rfl := mem_singleton.1 hb
    simp only [any_eq_true, not_exists, not_and, Bool.not_eq_true] at hnone
    exact hnone a ha

theorem erase (h : Distinct t) (key : Scalar) : Distinct (t.erase key) := h.sublist filter_sublist

end Distinct

end Table

def Scalar.IsKey (s : Scalar) : Prop := (∃ n, s = .int n) ∨ ∃ t, s = .text t

theorem Scalar.IsKey.same_iff {a b : Scalar} (ha : a.IsKey) (hb : b.IsKey ∨ b = .absent) : a.same b = true ↔ a = b := by
  rcases ha with ⟨n, rfl⟩ | ⟨s, rfl⟩ <;> rcases hb with (⟨m, rfl⟩ | ⟨u, rfl⟩) | rfl <;>
    simp [Scalar.same, Scalar.equal, Scalar.isNaN]

namespace Table

def Whole (t : Table) : Prop := ∀ e ∈ t, e.1.IsKey

variable {value : Ref}

variable {e : Scalar × Ref}

theorem Whole.same_iff (hw : Whole t) (hk : key.IsKey ∨ key = .absent) (he : e ∈ t) :
    e.1.same key = true ↔ e.1 = key :=
  (hw e he).same_iff hk

theorem Whole.set (hw : Whole t) (hk : key.IsKey) (value : Ref) : Whole (t.set key value) := by
  unfold Table.set
  split
  · rintro e he
    obtain ⟨e', he', rfl⟩ := mem_map.1 he
    rw [fst_replaced]
    exact hw e' he'
  · intro e he
    rcases mem_append.1 he with he | he
    · exact hw e he
    · rw [mem_singleton.1 he]
      exact hk

theorem Whole.sublist (hw : Whole t) (hs : t'.Sublist t) : Whole t' := fun e he => hw e (hs.subset he)

theorem Distinct.nodup (h : Distinct t) (hw : Whole t) : (t.map Prod.fst).Nodup := by
  refine pairwise_map.2 (h.imp_of_mem fun {a b} ha hb hab he => ?_)
  have := ((hw a ha).same_iff (.inl (hw b hb))).2 he
  rw [hab] at this
  cases this

theorem get?_eq_some_iff (h : Distinct t) (hw : Whole t) (hk : key.IsKey ∨ key = .absent) :
    t.get? key = some value ↔ (key, value) ∈ t := by
  unfold get?
  rw [Option.map_eq_some_iff]
  constructor
  · rintro ⟨e, he, rfl⟩
    have hmem := mem_of_find?_eq_some he
    have hsame : e.1.same key = true := by simpa using find?_some he
    rwa [← (hw.same_iff hk hmem).1 hsame]
  · intro hmem
    have hsome : (t.find? fun e => e.1.same key).isSome = true :=
      find?_isSome.2 ⟨_, hmem, (hw.same_iff hk hmem).2 rfl⟩
    obtain ⟨e, he⟩ := Option.isSome_iff_exists.1 hsome
    have hsame : e.1.same key = true := by simpa using find?_some he
    have hkey := (hw.same_iff hk (mem_of_find?_eq_some he)).1 hsame
    have heq := inj_on_of_nodup_map (h.nodup hw) (mem_of_find?_eq_some he) hmem hkey
    exact ⟨e, he, congrArg Prod.snd heq⟩

theorem get?_isSome_iff (h : Distinct t) (hw : Whole t) (hk : key.IsKey ∨ key = .absent) :
    (t.get? key).isSome = true ↔ key ∈ t.map Prod.fst := by
  rw [Option.isSome_iff_exists, mem_map]
  constructor
  · rintro ⟨value, hv⟩
    exact ⟨_, (get?_eq_some_iff h hw hk).1 hv, rfl⟩
  · rintro ⟨e, he, rfl⟩
    exact ⟨e.2, (get?_eq_some_iff h hw hk).2 he⟩

theorem mem_set_iff (hw : Whole t) (hk : key.IsKey) : e ∈ t.set key value ↔ e = (key, value) ∨ e ∈ t ∧ e.1 ≠ key := by
  unfold Table.set
  split
  · next hany =>
    rw [mem_map]
    constructor
    · rintro ⟨e', he', rfl⟩
      split
      · next hsame => exact .inl (by rw [(hw.same_iff (.inl hk) he').1 hsame])
      · next hsame => exact .inr ⟨he', fun h => hsame ((hw.same_iff (.inl hk) he').2 h)⟩
    · rintro (rfl | ⟨he, hne⟩)
      · obtain ⟨e', he', hsame⟩ := any_eq_true.1 hany
        refine ⟨e', he', ?_⟩
        rw [if_pos hsame, (hw.same_iff (.inl hk) he').1 hsame]
      · exact ⟨e, he, if_neg fun h => hne ((hw.same_iff (.inl hk) he).1 h)⟩
  · next hnone =>
    have hnew {e : Scalar × Ref} (he : e ∈ t) : e.1 ≠ key := fun h =>
      hnone (any_eq_true.2 ⟨e, he, (hw.same_iff (.inl hk) he).2 h⟩)
    rw [mem_append, mem_singleton]
    constructor
    · rintro (he | rfl)
      · exact .inr ⟨he, hnew he⟩
      · exact .inl rfl
    · rintro (rfl | ⟨he, -⟩)
      · exact .inr rfl
      · exact .inl he

/-- A key that is there keeps its place, and a new one comes last. -/
theorem keys_set (hw : Whole t) (hk : key.IsKey) (value : Ref) :
    (key ∈ t.map Prod.fst → (t.set key value).map Prod.fst = t.map Prod.fst) ∧
    (key ∉ t.map Prod.fst → (t.set key value).map Prod.fst = t.map Prod.fst ++ [key]) := by
  have hany : t.any (·.1.same key) = true ↔ key ∈ t.map Prod.fst := by
    rw [any_eq_true, mem_map]
    exact exists_congr fun e => and_congr_right fun he => hw.same_iff (.inl hk) he
  refine ⟨fun h => ?_, fun h => ?_⟩
  · rw [Table.set, if_pos (hany.2 h), map_map]
    exact map_congr_left fun e _ => fst_replaced key value e
  · rw [Table.set, if_neg fun h' => h (hany.1 h'), map_append]
    rfl

theorem mem_erase_iff (hw : Whole t) (hk : key.IsKey) : e ∈ t.erase key ↔ e ∈ t ∧ e.1 ≠ key := by
  rw [Table.erase, mem_filter]
  refine and_congr_right fun he => ?_
  rw [Bool.not_eq_true', ← Bool.not_eq_true, hw.same_iff (.inl hk) he]

end Table

theorem World.table_newTable (w : World) (t : Table) : (w.newTable t).store.table w.store.tables.size = t := by
  unfold World.newTable Store.table
  rw [Array.getD_eq_getD_getElem?, Array.getElem?_push_size]
  rfl

theorem World.table_modifyTable (w : World) (m n : Nat) (f : Table → Table) :
    (w.modifyTable m f).store.table n = w.store.table n ∨ (w.modifyTable m f).store.table n = f (w.store.table n) := by
  unfold World.modifyTable Store.table
  rw [Array.getD_eq_getD_getElem?, Array.getD_eq_getD_getElem?, Array.getElem?_modify]
  by_cases hm : m = n
  · rw [if_pos hm]
    cases w.store.tables[n]? with
    | none => exact .inl rfl
    | some t => exact .inr rfl
  · exact .inl (by rw [if_neg hm])

variable {v : World}

/-- From a table that exists, evaluation can only take entries out. -/
theorem Reaches.table_sublist (h : Reaches frame w v) {n : Nat} (hn : n < w.store.tables.size) :
    (v.store.table n).Sublist (w.store.table n) := by
  have entered {b : Option Builtin} {frame inner : Frame} {args : List Ref} {w v : World}
      (he : Enters frame b inner args w v) : v.store.tables = w.store.tables := by
    obtain ⟨u, hu, rfl⟩ := he.entered
    exact hu.tables
  have same {w v : World} (ht : v.store.tables = w.store.tables) {n : Nat} : v.store.table n = w.store.table n := by
    rw [Store.table, Store.table, ht]
  induction h with
  | trans h _ ih ih' =>
    obtain ⟨happened, -, hk⟩ := h.keepsAfter
    exact (ih' (Nat.lt_of_lt_of_le hn hk.tables)).trans (ih hn)
  | newTable frame w t => rw [(KeepsBut.of_newTable w t).table hn (Set.notMem_empty _)]
  | scope _ _ ih => exact ih hn
  | call he _ ih | run _ he _ ih =>
    have ht := entered he
    rw [← same ht]
    exact ih (by rwa [ht])
  | @elements frame b inner r args w v f _ he =>
    show (v.store.table n).Sublist _
    rw [same (entered he)]
  | @erase frame inner r args w v m key he _ =>
    have hv : v.store.table n = w.store.table n := same (entered he)
    rcases v.table_modifyTable m n (·.erase key) with ht | ht
    · rw [ht, hv]
    · rw [ht, hv]
      exact filter_sublist
  | _ => exact List.Sublist.refl _

/-- In a world, a value is a dictionary that was made by literals, sums with pairs and differences with keys. Between
two steps anything may be evaluated, `remove` included; a copy, as a call gives it, shares the table. -/
inductive Produced : World → Ref → Prop
  | literal {span pairs frame w v d} : evaluate (.dict span pairs) frame w = .ok d v → Produced v d
  | sum {frame node w v u d d' pair} : Produced v d → Applies frame (.operator .add) [d, pair] node w v →
    evaluate node frame w = .ok d' u → Produced u d'
  | difference {frame node w v u d d' key} : Produced v d → Applies frame (.operator .sub) [d, key] node w v →
    evaluate node frame w = .ok d' u → Produced u d'
  | copied {v d d'} : Produced v d → (v.cell d').payload = (v.cell d).payload → Produced v d'
  | later {frame w v d} : Produced w d → Reaches frame w v → Produced v d

/-- In a world, a value is a dictionary with this table. -/
structure HasTable (v : World) (d : Ref) (t : Table) : Prop where
  held : v.store.held d = .entries t
  has : v.store.Has d

namespace HasTable

variable {d : Ref}

theorem iff_dict : HasTable v d t ↔
    ∃ n, (v.cell d).payload = .dict n ∧ n < v.store.tables.size ∧ v.store.table n = t := by
  constructor
  · rintro ⟨hheld, hd, hstock⟩
    rcases v.store.stockOf_cases d with hs | ⟨n, hp, hs⟩
    · rw [Store.held, hs] at hheld
      cases hheld
    · rw [Store.held, hs] at hheld
      rw [hs] at hstock
      exact ⟨n, hp, hstock, Contents.entries.inj hheld⟩
  · rintro ⟨n, hp, hn, rfl⟩
    have hs := Store.stockOf_dict hp
    refine ⟨by rw [Store.held, hs]; rfl, Store.lt_of_stock (.inr ?_), by rw [hs]; exact hn⟩
    rw [hs]
    exact Stock.noConfusion

theorem keeps (h : HasTable v d t) (hk : KeepsBut ∅ v u) : HasTable u d t := by
  refine ⟨(hk.held h.has (Set.notMem_empty _)).trans h.held, Nat.lt_of_lt_of_le h.has.1 hk.cells, ?_⟩
  rw [hk.stock h.has.1]
  exact hk.hasStock h.has.2

/-- A dictionary keeps its table, but for entries that are taken out. -/
theorem reaches (h : HasTable v d t) (hr : Reaches frame v u) : ∃ t', HasTable u d t' ∧ t'.Sublist t := by
  obtain ⟨n, hp, hn, rfl⟩ := iff_dict.1 h
  obtain ⟨happened, -, hk⟩ := hr.keepsAfter
  have hs : u.store.stockOf d = .table n := (hk.stock h.has.1).trans (Store.stockOf_dict hp)
  refine ⟨u.store.table n, iff_dict.2 ?_, hr.table_sublist hn⟩
  rcases u.store.stockOf_cases d with hcell | ⟨m, hp', hm⟩
  · rw [hs] at hcell
    cases hcell
  · rw [hs] at hm
    cases hm
    exact ⟨n, hp', Nat.lt_of_lt_of_le hn hk.tables, rfl⟩

theorem dictResult (left : Cell) (t : Table) (v : World) : ∃ u, Eval.dictResult left t v = .ok v.size u ∧
    HasTable u v.size t ∧ KeepsBut ∅ v u := by
  refine ⟨(v.newTable t).alloc { left with payload := .dict v.store.tables.size }, rfl, iff_dict.2 ?_, ?_⟩
  · refine ⟨v.store.tables.size, congrArg Cell.payload (World.cell_alloc_size _ _), ?_, v.table_newTable t⟩
    show v.store.tables.size < (v.store.tables.push t).size
    simp
  · exact (KeepsBut.of_newTable v t).alloc _

end HasTable

/-- The entries of a literal are put into its table one after the other. -/
theorem entries_distinct {ev : Evaluator} (pairs : List (Node × Node))
    (ht : t.Distinct) (h : entries ev frame t pairs w = .ok t' v) : t'.Distinct := by
  induction pairs generalizing t w with
  | nil =>
    cases h
    exact ht
  | cons pair pairs ih =>
    rw [entries] at h
    cases hk : ev pair.1 frame w with
    | error s u =>
      rw [bind_error hk] at h
      cases h
    | ok key u =>
      rw [bind_ok hk] at h
      cases hx : ev pair.2 frame u with
      | error s u' =>
        rw [bind_error hx] at h
        cases h
      | ok value u' =>
        rw [bind_ok hx, bind_ok (show payload key u' = .ok _ u' from rfl)] at h
        cases hp : (u'.cell key).payload <;> rw [hp] at h
        case number s => exact ih (ht.set s value) h
        case string s => exact ih (ht.set s value) h
        all_goals cases h

theorem literal_distinct {span : Span} {pairs : List (Node × Node)} {d : Ref}
    (h : evaluate (.dict span pairs) frame w = .ok d v) : ∃ t, HasTable v d t ∧ t.Distinct := by
  rw [evaluate_eq_of_ends (by rw [h]; exact ends_ok d v)] at h
  cases ht : entries evaluate frame [] pairs w with
  | error s u =>
    rw [step, bind_error ht] at h
    cases h
  | ok t u =>
    rw [step, bind_ok ht] at h
    -- the dictionary is made with the table, as where another one was seen
    obtain ⟨u', hu', htable, -⟩ := HasTable.dictResult ⟨default, some span.start, some span.stop, some frame⟩ t u
    have hmade : (do let n ← newTable t; make (.dict n) span frame) u = .ok u.size u' := hu'
    rw [hmade] at h
    cases h
    exact ⟨t, htable, entries_distinct pairs .nil ht⟩

namespace HasTable

variable {d k : Ref}

variable (h : HasTable v d t)
include h

theorem add_pair {pair x : Ref} (hp : (v.cell pair).payload = .list #[k, x])
    (hk : (v.cell k).payload.key? = some key) :
    ∃ u, binary .add d pair v = .ok v.size u ∧ HasTable u v.size (t.set key x) ∧
      KeepsBut ∅ v u := by
  obtain ⟨n, hd, -, rfl⟩ := iff_dict.1 h
  have hadd : binary .add d pair v = Eval.dictResult (v.cell d) ((v.store.table n).set key x) v := by
    show add _ _ _ v = _
    rw [add, hd, hp]
    dsimp only
    rw [if_pos (show #[k, x].size = 2 from rfl), bind_ok (show payload _ v = .ok _ v from rfl)]
    rw [show #[k, x].getD 0 0 = k from rfl, hk]
    rfl
  rw [hadd]
  exact dictResult _ _ v

theorem of_add {pair d' : Ref} (hu : binary .add d pair v = .ok d' u) :
    ∃ k x key, (v.cell pair).payload = .list #[k, x] ∧ (v.cell k).payload.key? = some key := by
  obtain ⟨n, hd, -, -⟩ := iff_dict.1 h
  have hadd : add (v.cell d) (v.cell pair) pair v = .ok d' u := hu
  rw [add, hd] at hadd
  cases hp : (v.cell pair).payload <;> rw [hp] at hadd
  case list es =>
    dsimp only at hadd
    split at hadd
    · next hsize =>
      obtain ⟨k, x, rfl⟩ : ∃ k x, es = #[k, x] := by
        obtain ⟨l⟩ := es
        obtain ⟨k, x, rfl⟩ := length_eq_two.1 hsize
        exact ⟨k, x, rfl⟩
      cases hk : (v.cell k).payload.key? with
      | some key => exact ⟨k, x, key, rfl, hk⟩
      | none =>
        rw [bind_ok (show payload _ v = .ok _ v from rfl), show #[k, x].getD 0 0 = k from rfl, hk] at hadd
        cases hadd
    · cases hadd
  all_goals cases hadd

theorem sub_key (hk : (v.cell k).payload.key? = some key) (ht : (t.get? key).isSome = true) :
    ∃ u, binary .sub d k v = .ok v.size u ∧ HasTable u v.size (t.erase key) ∧
      KeepsBut ∅ v u := by
  obtain ⟨n, hd, -, rfl⟩ := iff_dict.1 h
  have hsub : binary .sub d k v = Eval.dictResult (v.cell d) ((v.store.table n).erase key) v := by
    show sub _ _ v = _
    rw [sub, hd]
    dsimp only
    rw [hk]
    dsimp only
    rw [bind_ok (show table n v = .ok _ v from rfl), if_pos ht]
  rw [hsub]
  exact dictResult _ _ v

theorem of_sub {d' : Ref} (hu : binary .sub d k v = .ok d' u) :
    ∃ key, (v.cell k).payload.key? = some key ∧ (t.get? key).isSome = true := by
  obtain ⟨n, hd, -, rfl⟩ := iff_dict.1 h
  have hsub : sub (v.cell d) (v.cell k) v = .ok d' u := hu
  rw [sub, hd] at hsub
  dsimp only at hsub
  cases hk : (v.cell k).payload.key? with
  | none =>
    rw [hk] at hsub
    cases hsub
  | some key =>
    refine ⟨key, rfl, ?_⟩
    rw [hk] at hsub
    dsimp only at hsub
    rw [bind_ok (show table n v = .ok _ v from rfl)] at hsub
    by_contra hno
    rw [if_neg hno] at hsub
    cases hm : missingKey key <;> rw [hm] at hsub <;> cases hsub

end HasTable

/-- A dictionary that is made step by step has a table without repeated keys. -/
theorem Produced.distinct {d : Ref} (h : Produced v d) : ∃ t, HasTable v d t ∧ t.Distinct := by
  induction h with
  | literal h => exact literal_distinct h
  | sum _ ha hu ih =>
    obtain ⟨t, ht, hd⟩ := ih
    obtain ⟨u', hu', hk⟩ := ha.binary_of_evaluate hu
    obtain ⟨k, x, key, hp, hkey⟩ := ht.of_add hu'
    obtain ⟨u, hadd, ht', -⟩ := ht.add_pair hp hkey
    rw [hadd] at hu'
    cases hu'
    exact ⟨_, ht'.keeps hk, hd.set key x⟩
  | difference _ ha hu ih =>
    obtain ⟨t, ht, hd⟩ := ih
    obtain ⟨u', hu', hk⟩ := ha.binary_of_evaluate hu
    obtain ⟨key, hkey, hget⟩ := ht.of_sub hu'
    obtain ⟨u, hsub, ht', -⟩ := ht.sub_key hkey hget
    rw [hsub] at hu'
    cases hu'
    exact ⟨_, ht'.keeps hk, hd.erase key⟩
  | copied _ hcopy ih =>
    obtain ⟨t, ht, hd⟩ := ih
    refine ⟨t, HasTable.iff_dict.2 ?_, hd⟩
    rw [hcopy]
    exact HasTable.iff_dict.1 ht
  | later _ hr ih =>
    obtain ⟨t, ht, hd⟩ := ih
    obtain ⟨t', ht', hs⟩ := ht.reaches hr
    exact ⟨t', ht', hd.sublist hs⟩

end Utterance

import Utterance.Proofs.OperatorEndings
import Utterance.Proofs.Tables

/-!
# Views of dictionaries

A dictionary is a list of entries, with the keys as values of their own (`Store.entriesOf`). Whatever a program asks
of a dictionary it learns about these entries (`Coherent`): `keys` and `values` list their two sides, `d @ k` gives
the value of the entry of `k`, and `has_key`, `d - k` and `remove` know the keys that have an entry. `d + [k, x]` and
`d - k` make dictionaries whose entries differ from those of `d` only for the key `k` (`dictionary_views_agree`).

This is so for every dictionary that is made by literals, sums and differences, if its keys are integers and texts. A
text value that holds nothing can be made a key by a literal, but `d @ k` does not take it for one
(`has_key_without_place`).
-/

namespace Utterance

open Eval Call List

variable {key : Scalar} {x : Ref}

def Payload.IsKey (p : Payload) : Prop := (∃ n, p = .number (.int n)) ∨ ∃ s, p = .string (.text s)

/-- The scalar of a number or a text value. -/
inductive Payload.Holds : Payload → Scalar → Prop
  | number (s : Scalar) : Holds (.number s) s
  | string (s : Scalar) : Holds (.string s) s

theorem Payload.Holds.unique {p : Payload} {a b : Scalar} (ha : p.Holds a) (hb : p.Holds b) : a = b := by
  cases ha <;> cases hb <;> rfl

theorem keyValue_injective : Function.Injective keyValue := by
  intro a b h
  cases a <;> cases b <;> simp_all [keyValue]

theorem isKey_keyValue_iff {s : Scalar} : (keyValue s).IsKey ↔ s.IsKey := by
  cases s <;> simp [keyValue, Payload.IsKey, Scalar.IsKey]

namespace Payload

variable {p : Payload}

theorem IsKey.exists_key (h : p.IsKey) : ∃ key : Scalar, key.IsKey ∧ p = keyValue key := by
  rcases h with ⟨n, rfl⟩ | ⟨s, rfl⟩
  · exact ⟨.int n, .inl ⟨n, rfl⟩, rfl⟩
  · exact ⟨.text s, .inr ⟨s, rfl⟩, rfl⟩

theorem key?_keyValue (h : key.IsKey) : (keyValue key).key? = some key := by
  rcases h with ⟨n, rfl⟩ | ⟨s, rfl⟩ <;> rfl

theorem Integral.key?_eq_some_iff (h : p.Integral) : p.key? = some key ↔ key.IsKey ∧ p = keyValue key := by
  constructor
  · intro hp
    cases p with
    | number s =>
      obtain ⟨n, rfl⟩ := h
      cases hp
      exact ⟨.inl ⟨n, rfl⟩, rfl⟩
    | string s =>
      rcases h with rfl | ⟨t, rfl⟩
      · cases hp
      · cases hp
        exact ⟨.inr ⟨t, rfl⟩, rfl⟩
    | _ => cases hp
  · rintro ⟨hk, rfl⟩
    exact key?_keyValue hk

theorem Integral.of_holds (h : p.Integral) (hp : p.Holds key) : key = .absent ∨ key.IsKey ∧ p = keyValue key := by
  cases hp with
  | number =>
    obtain ⟨n, rfl⟩ := h
    exact .inr ⟨.inl ⟨n, rfl⟩, rfl⟩
  | string =>
    rcases h with rfl | ⟨t, rfl⟩
    · exact .inl rfl
    · exact .inr ⟨.inr ⟨t, rfl⟩, rfl⟩

theorem holds_of_key? (h : p.key? = some key) : p.Holds key := by
  cases p with
  | number s =>
    cases s <;> cases h <;> exact .number _
  | string s =>
    cases s <;> cases h <;> exact .string _
  | _ => cases h

end Payload

/-- The entries of a dictionary, with the keys as values of their own. -/
def Store.entriesOf (s : Store) (d : Ref) : List (Payload × Ref) :=
  match (s.cell d).payload with
  | .dict n => (s.table n).map fun e => (keyValue e.1, e.2)
  | _ => []

def Store.keysOf (s : Store) (d : Ref) : List Payload := (s.entriesOf d).map Prod.fst

namespace HasTable

variable {v : World} {d : Ref} {t : Table} (h : HasTable v d t)

include h

theorem entriesOf : v.store.entriesOf d = t.map fun e => (keyValue e.1, e.2) := by
  obtain ⟨n, hd, -, rfl⟩ := iff_dict.1 h
  rw [Store.entriesOf, hd]

theorem keysOf : v.store.keysOf d = (t.map Prod.fst).map keyValue := by
  rw [Store.keysOf, h.entriesOf, map_map, map_map]
  rfl

theorem mem_entriesOf : (keyValue key, x) ∈ v.store.entriesOf d ↔ (key, x) ∈ t := by
  rw [h.entriesOf]
  refine mem_map_of_injective (f := fun e : Scalar × Ref => (keyValue e.1, e.2)) ?_ (a := (key, x))
  intro a b hab
  exact Prod.ext (keyValue_injective (congrArg Prod.fst hab)) (congrArg Prod.snd hab :)

theorem mem_keysOf : keyValue key ∈ v.store.keysOf d ↔ key ∈ t.map Prod.fst := by
  rw [h.keysOf, mem_map_of_injective keyValue_injective]

theorem whole (hk : ∀ p ∈ v.store.keysOf d, p.IsKey) : t.Whole := fun _ he =>
  isKey_keyValue_iff.1 (hk _ (h.mem_keysOf.2 (mem_map_of_mem he)))

variable {p : Payload}

variable (hd : t.Distinct) (hw : t.Whole) (hp : p.Integral)
include hd hw hp

theorem mem_entriesOf_iff : (p, x) ∈ v.store.entriesOf d ↔ ∃ key, p.key? = some key ∧ t.get? key = some x := by
  constructor
  · intro hmem
    obtain ⟨e, he, hex⟩ := mem_map.1 (h.entriesOf ▸ hmem)
    cases hex
    have hkey := hw e he
    exact ⟨e.1, Payload.key?_keyValue hkey, (Table.get?_eq_some_iff hd hw (.inl hkey)).2 he⟩
  · rintro ⟨key, hkey, hx⟩
    obtain ⟨hk, rfl⟩ := hp.key?_eq_some_iff.1 hkey
    exact h.mem_entriesOf.2 ((Table.get?_eq_some_iff hd hw (.inl hk)).1 hx)

theorem mem_keysOf_iff : p ∈ v.store.keysOf d ↔ ∃ key, p.key? = some key ∧ (t.get? key).isSome = true := by
  rw [Store.keysOf, mem_map]
  constructor
  · rintro ⟨⟨q, x⟩, hmem, rfl⟩
    obtain ⟨key, hkey, hx⟩ := (h.mem_entriesOf_iff hd hw hp).1 hmem
    exact ⟨key, hkey, by rw [hx]; rfl⟩
  · rintro ⟨key, hkey, hsome⟩
    obtain ⟨x, hx⟩ := Option.isSome_iff_exists.1 hsome
    exact ⟨(p, x), (h.mem_entriesOf_iff hd hw hp).2 ⟨key, hkey, hx⟩, rfl⟩

/-- The functions take what a value holds for a key. Where it holds nothing, there is no entry. -/
theorem mem_keysOf_iff_holds : p ∈ v.store.keysOf d ↔ ∃ key, p.Holds key ∧ (t.get? key).isSome = true := by
  rw [h.mem_keysOf_iff hd hw hp]
  refine exists_congr fun key => and_congr_left fun hsome => ⟨Payload.holds_of_key?, fun hholds => ?_⟩
  rcases hp.of_holds hholds with rfl | ⟨hkey, hvalue⟩
  · obtain ⟨e, he, habsent⟩ := mem_map.1 ((Table.get?_isSome_iff hd hw (.inr rfl)).1 hsome)
    rcases hw e he with ⟨n, hn⟩ | ⟨s, hs⟩
    · cases hn.symm.trans habsent
    · cases hs.symm.trans habsent
  · exact hp.key?_eq_some_iff.2 ⟨hkey, hvalue⟩

end HasTable

/-! ### Views and operations -/

/-- The views of a dictionary are those of its entries. -/
structure Coherent (v : World) (d : Ref) : Prop where
  nodup : (v.store.keysOf d).Nodup
  /-- `keys(d)` is a list of the keys, in the order of the entries. -/
  keys : Performs v (.call .keys) [d] fun x => ∃ r u ks, x = .ok r u ∧ (u.cell r).payload = .list ks ∧
    ks.toList.map (fun k => (u.cell k).payload) = v.store.keysOf d ∧ KeepsBut ∅ v u
  /-- `values(d)` is a list of the values, in the same order. -/
  values : Performs v (.call .values) [d] (MakesNew v (.list ((v.store.entriesOf d).map Prod.snd).toArray))
  /-- `d @ k` is the value of the entry of `k`. -/
  place {k} : (v.cell k).payload.Integral → Performs v .place [d, k] fun y => ∀ x u, y = .ok x u ↔
    ((v.cell k).payload, x) ∈ v.store.entriesOf d ∧ u = v
  hasKey {k} : (v.cell k).payload.Integral → Performs v (.call .hasKey) [d, k] fun x =>
    (Returns (truthNumber true) x ↔ (v.cell k).payload ∈ v.store.keysOf d)
  difference {k} : (v.cell k).payload.Integral → Performs v (.operator .sub) [d, k] fun x =>
    (Succeeds x ↔ (v.cell k).payload ∈ v.store.keysOf d)
  remove {k} : (v.cell k).payload.Integral → Performs v (.call .remove) [d, k] fun x =>
    (Succeeds x ↔ (v.cell k).payload ∈ v.store.keysOf d)

theorem mapM_fresh {α : Type} {f : α → Eval Ref} {p : α → Payload}
    (hf : ∀ a w, f a w = .ok w.size (w.alloc (.fresh (p a)))) (as : List α) (w : World) :
    ∃ rs u, as.mapM f w = .ok rs u ∧ rs.map (fun r => (u.cell r).payload) = as.map p ∧
      (∀ r ∈ rs, r < u.size) ∧ KeepsBut ∅ w u := by
  induction as generalizing w with
  | nil => exact ⟨[], w, rfl, rfl, nofun, .of_store_eq rfl rfl⟩
  | cons a as ih =>
    obtain ⟨rs, u, hrs, hp, hlt, hk⟩ := ih (w.alloc (.fresh (p a)))
    have hsize : w.size < (w.alloc (.fresh (p a))).size := by simp
    refine ⟨w.size :: rs, u, ?_, ?_, ?_, (KeepsBut.of_alloc w _).andThen hk⟩
    · rw [mapM_cons, bind_ok (hf a w), bind_ok hrs]
      rfl
    · rw [map_cons, hp, hk.payload hsize (Set.notMem_empty _), World.cell, World.cell_alloc_size]
      rfl
    · exact forall_mem_cons.2 ⟨Nat.lt_of_lt_of_le hsize hk.cells, hlt⟩

namespace HasTable

variable {v : World} {d : Ref} {t : Table} (h : HasTable v d t)

include h

theorem enters {b : Option Builtin} {inner : Frame} {args : List Ref} {u : World}
    (he : Enters default b inner args v u) :
    HasTable u d t :=
  h.keeps he.keeps

theorem call_dict (c : Call) (details : String) :
    ∃ n, c.dict d details v = .ok n v ∧ v.store.table n = t ∧ (v.cell d).payload = .dict n := by
  obtain ⟨n, hd, -, ht⟩ := iff_dict.1 h
  refine ⟨n, ?_, ht, hd⟩
  rw [dict, bind_ok (show payload d v = .ok _ v from rfl), hd]
  rfl

theorem performs_keys : Performs v (.call .keys) [d] fun x => ∃ r u ks, x = .ok r u ∧
    (u.cell r).payload = .list ks ∧
    ks.toList.map (fun k => (u.cell k).payload) = v.store.keysOf d ∧ KeepsBut ∅ v u := by
  refine ⟨fun ha => ?_⟩
  obtain ⟨c, u, he, hok, -⟩ := ha.evaluate_call rfl
  obtain ⟨n, hn, ht, -⟩ := (h.enters he).call_dict c "Argument must be dictionary"
  obtain ⟨rs, u', hrs, hp, hlt, hk⟩ := mapM_fresh (f := fun e : Scalar × Ref => fresh (keyValue e.1))
    (fun _ _ => rfl) t u
  have hkeys : builtin evaluate c .keys [d] u = .ok u'.size (u'.alloc (.fresh (.list rs.toArray))) := by
    show c.keys d u = _
    rw [Call.keys, bind_ok hn, bind_ok (show table n u = .ok _ u from rfl), ht]
    exact bind_ok hrs
  obtain ⟨new, hnew, hx⟩ := hok hkeys
  have hkept := (KeepsBut.of_alloc u' (.fresh (.list rs.toArray))).alloc new
  refine ⟨_, _, rs.toArray, hx, ?_, ?_, (he.keeps.andThen hk).andThen hkept⟩
  · rw [World.cell, World.cell_alloc_size, hnew, World.cell, World.cell_alloc_size]
    rfl
  · rw [h.keysOf, map_map]
    refine Eq.trans ?_ hp
    exact map_congr_left fun r hr => hkept.payload (hlt r hr) (Set.notMem_empty _)

theorem performs_values :
    Performs v (.call .values) [d] (MakesNew v (.list ((v.store.entriesOf d).map Prod.snd).toArray)) := by
  refine .callMakes rfl fun c u he => ?_
  obtain ⟨n, hn, ht, -⟩ := (h.enters he).call_dict c "Argument must be dictionary"
  refine ⟨.fresh (.list (t.map Prod.snd).toArray), ?_, ?_⟩
  · rw [h.entriesOf, map_map]
    rfl
  · show c.values d u = _
    rw [values, bind_ok hn, bind_ok (show table n u = .ok _ u from rfl), ht]
    rfl

variable {k : Ref}

theorem performs_place : Performs v .place [d, k] fun y => ∀ x u, y = .ok x u ↔
    (∃ key, (v.cell k).payload.key? = some key ∧ t.get? key = some x) ∧ u = v := by
  obtain ⟨n, hd, -, ht⟩ := iff_dict.1 h
  refine .place fun collection key frame x u => ?_
  have hindex : index collection key d k frame v = entry (v.cell d) (v.cell k) n v := by
    rw [index, bind_ok (show cell d v = .ok _ v from rfl), bind_ok (show cell k v = .ok _ v from rfl), hd]
  rw [hindex, entry]
  cases hk : (v.cell k).payload.key? with
  | none =>
    refine iff_of_false (fun hx => by cases hx) ?_
    rintro ⟨⟨_, hsome, -⟩, -⟩
    cases hsome
  | some key =>
    dsimp only
    rw [bind_ok (show table n v = .ok _ v from rfl), ht]
    cases hx : t.get? key with
    | none =>
      refine iff_of_false (fun hx => ?_) ?_
      · cases hm : missingKey key <;> rw [hm] at hx <;> cases hx
      · rintro ⟨⟨_, hsome, hget⟩, -⟩
        cases hsome
        cases hx.symm.trans hget
    | some y =>
      constructor
      · intro hx'
        cases hx'
        exact ⟨⟨key, rfl, hx⟩, rfl⟩
      · rintro ⟨⟨_, hsome, hget⟩, rfl⟩
        cases hsome
        cases hx.symm.trans hget
        rfl

theorem performs_sub : Performs v (.operator .sub) [d, k] fun x =>
    (Succeeds x ↔ ∃ key, (v.cell k).payload.key? = some key ∧ (t.get? key).isSome = true) := by
  refine ⟨fun ha => ?_⟩
  constructor
  · rintro ⟨r, u, hu⟩
    obtain ⟨u', hu', -⟩ := ha.binary_of_evaluate hu
    exact h.of_sub hu'
  · rintro ⟨key, hk, hsome⟩
    obtain ⟨u, hu, -⟩ := h.sub_key hk hsome
    obtain ⟨u', hu', -⟩ := ha.evaluate_operator hu
    exact ⟨_, u', hu'⟩

omit h in
theorem key_ok (c : Call) (hk : (v.cell k).payload.Holds key) : c.key k v = .ok key v := by
  rw [Call.key, bind_ok (show payload k v = .ok _ v from rfl)]
  generalize (v.cell k).payload = p at hk
  cases hk <;> rfl

omit h in
theorem key_error (c : Call) (hk : ∀ key, ¬ (v.cell k).payload.Holds key) :
    ∃ d, c.key k v = .error (.error d) v := by
  rw [key, bind_ok (show payload k v = .ok _ v from rfl)]
  generalize (v.cell k).payload = p at hk
  cases p with
  | number s => exact absurd (.number s) (hk s)
  | string s => exact absurd (.string s) (hk s)
  | _ => exact ⟨_, rfl⟩

theorem performs_hasKey : Performs v (.call .hasKey) [d, k] fun x => (Returns (truthNumber true) x ↔
    ∃ key, (v.cell k).payload.Holds key ∧ (t.get? key).isSome = true) := by
  refine ⟨fun ha => ?_⟩
  by_cases hk : ∃ key, (v.cell k).payload.Holds key
  · obtain ⟨key, hkey⟩ := hk
    have hmakes : Performs v (.call .hasKey) [d, k] (MakesNew v (truthNumber (t.get? key).isSome)) := by
      refine .callMakes rfl fun c u he => ⟨.fresh (truthNumber (t.get? key).isSome), rfl, ?_⟩
      obtain ⟨n, hn, ht, -⟩ := (h.enters he).call_dict c "First argument must be dictionary"
      show c.hasKey d k u = _
      rw [hasKey, bind_ok hn, bind_ok (key_ok c (he.payload k ▸ hkey)),
        bind_ok (show table n u = .ok _ u from rfl), ht]
      rfl
    have hmade := hmakes.of ha
    constructor
    · intro htrue
      refine ⟨key, hkey, ?_⟩
      have hsame := htrue.unique hmade.returns
      cases hsome : (t.get? key).isSome with
      | true => rfl
      | false =>
        rw [hsome] at hsame
        cases hsame
    · rintro ⟨key', hkey', hsome⟩
      rw [hkey'.unique hkey] at hsome
      rw [← hsome]
      exact hmade.returns
  · have hrefuses : Performs v (.call .hasKey) [d, k] EndsWithError := by
      refine .callRefuses rfl fun c u he => ?_
      obtain ⟨n, hn, -⟩ := (h.enters he).call_dict c "First argument must be dictionary"
      obtain ⟨diagnostic, hd⟩ := key_error (v := u) c (he.payload k ▸ not_exists.1 hk)
      refine ⟨diagnostic, u, ?_⟩
      show c.hasKey d k u = _
      rw [hasKey, bind_ok hn, bind_error hd]
    exact iff_of_false (fun htrue => (hrefuses.of ha).not_succeeds htrue.succeeds) fun ⟨key, hkey, _⟩ => hk ⟨key, hkey⟩

theorem remove_ok (c : Call) (hk : (v.cell k).payload.Holds key)
    (hx : t.get? key = some x) : ∃ u, c.remove d k v = .ok x u := by
  obtain ⟨n, hd, -, ht⟩ := iff_dict.1 h
  rw [remove, bind_ok (show cell d v = .ok _ v from rfl), hd]
  dsimp only
  rw [bind_ok (key_ok c hk), bind_ok (show table n v = .ok _ v from rfl), ht, hx]
  exact ⟨_, rfl⟩

theorem remove_error (c : Call) (hk : ∀ key, (v.cell k).payload.Holds key → t.get? key = none) :
    ∃ s, c.remove d k v = .error s v ∧ s ≠ .exhausted := by
  obtain ⟨n, hd, -, ht⟩ := iff_dict.1 h
  rw [remove, bind_ok (show cell d v = .ok _ v from rfl), hd]
  dsimp only
  by_cases hheld : ∃ key, (v.cell k).payload.Holds key
  · obtain ⟨key, hkey⟩ := hheld
    rw [bind_ok (key_ok c hkey), bind_ok (show table n v = .ok _ v from rfl), ht, hk key hkey]
    cases hm : missingKey key <;> exact ⟨_, rfl, nofun⟩
  · obtain ⟨diagnostic, hkey⟩ := key_error (v := v) c (not_exists.1 hheld)
    exact ⟨.error diagnostic, bind_error hkey, nofun⟩

theorem performs_remove : Performs v (.call .remove) [d, k] fun x => (Succeeds x ↔
    ∃ key, (v.cell k).payload.Holds key ∧ (t.get? key).isSome = true) := by
  refine ⟨fun ha => ?_⟩
  obtain ⟨c, u, he, hok, herror⟩ := ha.evaluate_call rfl
  by_cases hk : ∃ key, (v.cell k).payload.Holds key ∧ (t.get? key).isSome = true
  · obtain ⟨key, hkey, hsome⟩ := id hk
    obtain ⟨x, hx⟩ := Option.isSome_iff_exists.1 hsome
    obtain ⟨u', hu'⟩ := (h.enters he).remove_ok c (he.payload k ▸ hkey) hx
    obtain ⟨new, -, hnew⟩ := hok hu'
    exact iff_of_true ⟨_, _, hnew⟩ hk
  · obtain ⟨s, hs, hends⟩ := (h.enters he).remove_error (k := k) c fun key hkey => by
      rw [he.payload k] at hkey
      cases hx : t.get? key with
      | none => rfl
      | some x => exact absurd ⟨key, hkey, by rw [hx]; rfl⟩ hk
    refine iff_of_false ?_ hk
    rintro ⟨r, u', hu'⟩
    cases (herror hs hends).symm.trans hu'

theorem coherent (hd : t.Distinct) (hw : t.Whole) : Coherent v d where
  nodup := by
    rw [h.keysOf]
    exact (hd.nodup hw).map keyValue_injective
  keys := h.performs_keys
  values := h.performs_values
  place hk := ⟨fun ha x u => by rw [h.performs_place.of ha, h.mem_entriesOf_iff hd hw hk]⟩
  hasKey hk := ⟨fun ha => by rw [h.performs_hasKey.of ha, h.mem_keysOf_iff_holds hd hw hk]⟩
  difference hk := ⟨fun ha => by rw [h.performs_sub.of ha, h.mem_keysOf_iff hd hw hk]⟩
  remove hk := ⟨fun ha => by rw [h.performs_remove.of ha, h.mem_keysOf_iff_holds hd hw hk]⟩

end HasTable

namespace HasTable

variable {v u : World} {d d' : Ref} {t : Table}

theorem entriesOf_set (h : HasTable v d t) (hw : t.Whole) (hk : key.IsKey) (h' : HasTable u d' (t.set key x)) :
    (∀ e, e ∈ u.store.entriesOf d' ↔ e = (keyValue key, x) ∨ e ∈ v.store.entriesOf d ∧ e.1 ≠ keyValue key) ∧
    (keyValue key ∈ v.store.keysOf d → u.store.keysOf d' = v.store.keysOf d) ∧
    (keyValue key ∉ v.store.keysOf d → u.store.keysOf d' = v.store.keysOf d ++ [keyValue key]) := by
  obtain ⟨hsame, hlast⟩ := Table.keys_set hw hk x
  refine ⟨fun e => ?_, fun hmem => ?_, fun hmem => ?_⟩
  · rw [h'.entriesOf, h.entriesOf, mem_map, mem_map]
    constructor
    · rintro ⟨e', he', rfl⟩
      rcases (Table.mem_set_iff hw hk).1 he' with rfl | ⟨he', hne⟩
      · exact .inl rfl
      · exact .inr ⟨⟨e', he', rfl⟩, fun heq => hne (keyValue_injective heq)⟩
    · rintro (rfl | ⟨⟨e', he', rfl⟩, hne⟩)
      · exact ⟨_, (Table.mem_set_iff hw hk).2 (.inl rfl), rfl⟩
      · exact ⟨e', (Table.mem_set_iff hw hk).2 (.inr ⟨he', fun heq => hne (congrArg keyValue heq)⟩), rfl⟩
  · rw [h'.keysOf, h.keysOf, hsame (h.mem_keysOf.1 hmem)]
  · rw [h'.keysOf, h.keysOf, hlast fun hkey => hmem (h.mem_keysOf.2 hkey), map_append]
    rfl

theorem entriesOf_erase (h : HasTable v d t) (hw : t.Whole) (hk : key.IsKey) (h' : HasTable u d' (t.erase key)) :
    (u.store.entriesOf d').Sublist (v.store.entriesOf d) ∧
    ∀ e ∈ v.store.entriesOf d, e ∈ u.store.entriesOf d' ↔ e.1 ≠ keyValue key := by
  rw [h'.entriesOf, h.entriesOf]
  refine ⟨filter_sublist.map _, fun e he => ?_⟩
  obtain ⟨e', he', rfl⟩ := mem_map.1 he
  rw [mem_map]
  constructor
  · rintro ⟨e'', he'', heq⟩ hkey
    obtain ⟨-, hne⟩ := (Table.mem_erase_iff hw hk).1 he''
    exact hne (keyValue_injective ((congrArg Prod.fst heq).trans hkey))
  · intro hne
    exact ⟨e', (Table.mem_erase_iff hw hk).2 ⟨he', fun heq => hne (congrArg keyValue heq)⟩, rfl⟩

end HasTable

/-- For a dictionary that was made by literals, sums and differences, with integers and texts as keys: all views tell
of the same entries; a sum with a pair has the value of the pair for its key and all else as before, with the keys in
the same order and a new one last; a difference with a key has all else as before, in the same order. -/
theorem dictionary_views_agree {v : World} {d : Ref} (h : Produced v d) (hkeys : ∀ p ∈ v.store.keysOf d, p.IsKey) :
    Coherent v d ∧
    (∀ {pair k x}, (v.cell pair).payload = .list #[k, x] → (v.cell k).payload.IsKey →
      Performs v (.operator .add) [d, pair] fun y => ∃ d' u, y = .ok d' u ∧
        v.size ≤ d' ∧ KeepsBut ∅ v u ∧ Coherent u d' ∧
        (∀ e, e ∈ u.store.entriesOf d' ↔ e = ((v.cell k).payload, x) ∨
          e ∈ v.store.entriesOf d ∧ e.1 ≠ (v.cell k).payload) ∧
        ((v.cell k).payload ∈ v.store.keysOf d → u.store.keysOf d' = v.store.keysOf d) ∧
        ((v.cell k).payload ∉ v.store.keysOf d →
          u.store.keysOf d' = v.store.keysOf d ++ [(v.cell k).payload])) ∧
    (∀ {k}, (v.cell k).payload ∈ v.store.keysOf d →
      Performs v (.operator .sub) [d, k] fun y => ∃ d' u, y = .ok d' u ∧
        v.size ≤ d' ∧ KeepsBut ∅ v u ∧ Coherent u d' ∧
        (u.store.entriesOf d').Sublist (v.store.entriesOf d) ∧
        ∀ e ∈ v.store.entriesOf d, e ∈ u.store.entriesOf d' ↔ e.1 ≠ (v.cell k).payload) := by
  obtain ⟨t, ht, hd⟩ := h.distinct
  have hw := ht.whole hkeys
  refine ⟨ht.coherent hd hw, fun {pair k x} hpair hk => ⟨fun ha => ?_⟩, fun {k} hk => ⟨fun ha => ?_⟩⟩
  · obtain ⟨key, hkey, hp⟩ := hk.exists_key
    obtain ⟨u, hu, ht', hkeep⟩ := ht.add_pair hpair (hp ▸ Payload.key?_keyValue hkey)
    obtain ⟨u', hu', hkeep'⟩ := ha.evaluate_operator hu
    have hnew := ht'.keeps hkeep'
    rw [hp]
    exact ⟨_, u', hu', Nat.le_refl _, hkeep.andThen hkeep', hnew.coherent (hd.set key x) (hw.set hkey x),
      ht.entriesOf_set hw hkey hnew⟩
  · obtain ⟨key, hkey, hp⟩ := (hkeys _ hk).exists_key
    rw [hp, ht.mem_keysOf, ← Table.get?_isSome_iff hd hw (.inl hkey)] at hk
    obtain ⟨u, hu, ht', hkeep⟩ := ht.sub_key (hp ▸ Payload.key?_keyValue hkey) hk
    obtain ⟨u', hu', hkeep'⟩ := ha.evaluate_operator hu
    have hnew := ht'.keeps hkeep'
    rw [hp]
    exact ⟨_, u', hu', Nat.le_refl _, hkeep.andThen hkeep',
      hnew.coherent (hd.erase key) (hw.sublist filter_sublist), ht.entriesOf_erase hw hkey hnew⟩

namespace DictionaryViews

open Sketch

def literal : Node := .dict default [(mention "k", mention "x")]

def texts : World :=
  .small [.fresh (.string (.text "a")), .fresh (.string (.text "b")), integer 1, integer 2]
    [("k", 0), ("j", 1), ("x", 2), ("y", 3)]

def pair : Node := .list default [mention "j", mention "y"]

def sum : Node := .binary default literal (mark .plus) pair

/-- The world in which the dictionary is made, and the one in which the pair is. -/
def made : World := after (evaluateTo 2 literal top texts)

def paired : World := after (evaluateTo 2 pair top made)

/-- In `{k: x} + [j, y]` the key `j` comes last. -/
theorem dictionary_views_agree_sum : Produced paired 6 ∧ (∀ p ∈ paired.store.keysOf 6, p.IsKey) ∧
    ∃ d u, evaluate sum top texts = .ok d u ∧
      u.store.keysOf d = [.string (.text "a"), .string (.text "b")] := by
  have happrox := evaluateTo_approximates 2
  have hliteral : evaluate literal top texts = .ok 6 made := (happrox literal top).eq_of_ok rfl
  have hpair : evaluate pair top made = .ok 9 paired := (happrox pair top).eq_of_ok rfl
  have happlies : Applies top (.operator .add) [6, 9] sum texts paired := .operator rfl hliteral hpair
  have hmoved := evaluate_moves pair top made (by rw [hpair]; exact ends_ok _ _)
  rw [hpair] at hmoved
  have hproduced : Produced paired 6 := (Produced.literal hliteral).later hmoved
  have hkeysOf : paired.store.keysOf 6 = [.string (.text "a")] := rfl
  have hkeys : ∀ p ∈ paired.store.keysOf 6, p.IsKey := by
    rw [hkeysOf]
    intro p hp
    exact .inr ⟨"a", mem_singleton.1 hp⟩
  refine ⟨hproduced, hkeys, ?_⟩
  obtain ⟨-, hsum, -⟩ := dictionary_views_agree hproduced hkeys
  have hlist : (paired.cell 9).payload = .list #[7, 8] := rfl
  obtain ⟨d, u, hu, -, -, -, -, -, hlast⟩ := (hsum hlist (.inr ⟨"b", rfl⟩)).of happlies
  refine ⟨d, u, hu, ?_⟩
  have hnew : (paired.cell 7).payload ∉ paired.store.keysOf 6 := by
    rw [hkeysOf, show (paired.cell 7).payload = .string (.text "b") from rfl]
    simp
  rw [hlast hnew, hkeysOf]
  rfl

/-- The function `has_key`, a text value that holds nothing as `k`, and a number as `x`. -/
def absent : World :=
  .small [.fresh (.string .absent), integer 7, .fresh (.builtin .hasKey)]
    [("k", 0), ("x", 1), ("has_key", 2)]

def call : Node := .apply default (mention "has_key") [literal, mention "k"]

/-- The world in which the function is found, and the one in which its arguments are evaluated. -/
def called : World := after ((do place (← copy (← evaluateTo 2 (mention "has_key") top)) default) absent)

def supplied : World := after ([literal, mention "k"].mapM (evaluateTo 2 · top) called)

/-- A literal takes a text value that holds nothing for a key, and so does `has_key`, but `@` does not: `has_key({k:
x}, k)` is true where `{k: x} @ k` fails. -/
theorem has_key_without_place : (absent.cell 0).payload = .string .absent ∧
    Returns (truthNumber true) (evaluate call top absent) ∧
    EndsWithError (evaluate (.index default literal (mention "k")) top absent) := by
  refine ⟨rfl, ?_, ?_⟩
  · have happlies : Applies top (.call .hasKey) [6, 7] call absent supplied :=
      .call_of_evaluateTo 2 (u := called) rfl rfl rfl rfl
    have htable : HasTable supplied 6 [(.absent, 5)] := HasTable.iff_dict.2 ⟨0, rfl, by decide, rfl⟩
    exact (htable.performs_hasKey.of happlies).2 ⟨.absent, .string _, rfl⟩
  · exact ⟨_, _, (evaluateTo_approximates 3 _ top).eq_of_error rfl nofun⟩

end DictionaryViews

end Utterance

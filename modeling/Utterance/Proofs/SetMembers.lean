import Mathlib.Data.List.Perm.Basic
import Mathlib.Data.Set.Card
import Utterance.Value.Member

/-!
# Members stand for sets

Things have forms as members (`f`), and they are the same thing or not (`g`). If forms are equal exactly for the same
things, a list of forms without repetitions stands for a set of things (`Members.Represents`), and the operations on
members are those on sets: inserting, erasing, union, difference, intersection and symmetric difference, the number of
members, inclusion and equality.
-/

namespace Utterance.Members

variable {α β : Type} {f : α → Member} {g : α → β} {ms ns : Members} {S T : Set β}

/-- Members stand for a set of things: they are the forms of its things, each of them once. -/
def Represents (f : α → Member) (g : α → β) (ms : Members) (S : Set β) : Prop :=
  ∃ xs : List α, xs.map f = ms ∧ (xs.map g).Nodup ∧ {c | c ∈ xs.map g} = S

namespace Represents

open List Members

theorem nil : Represents f g [] ∅ := ⟨[], rfl, nodup_nil, by simp⟩

section

variable (hs : Represents f g ms S)
include hs

theorem finite : S.Finite := by
  obtain ⟨xs, -, -, rfl⟩ := hs
  exact finite_toSet _

theorem ncard : S.ncard = ms.length := by
  classical
  obtain ⟨xs, rfl, hnodup, rfl⟩ := hs
  have hset : {c | c ∈ xs.map g} = ((xs.map g).toFinset : Set β) := by
    ext c
    simp
  rw [hset, Set.ncard_coe_finset, toFinset_card_of_nodup hnodup, length_map, length_map]

theorem perm (hp : ns.Perm ms) : Represents f g ns S := by
  obtain ⟨xs, rfl, hxs, rfl⟩ := hs
  have hforms : Forall₂ (fun m a => m = f a) (xs.map f) xs :=
    List.forall₂_map_left_iff.2 (List.forall₂_same.2 fun _ _ => rfl)
  obtain ⟨ys, hys, hperm⟩ := perm_comp_forall₂ hp hforms
  refine ⟨ys, ?_, (hperm.map g).nodup_iff.2 hxs, ?_⟩
  · exact (List.forall₂_eq_eq_eq ▸ List.forall₂_map_right_iff.2 hys : ns = ys.map f).symm
  · ext c
    exact (hperm.map g).mem_iff

theorem append (ht : Represents f g ns T) (hdisjoint : ∀ c ∈ S, c ∉ T) : Represents f g (ms ++ ns) (S ∪ T) := by
  obtain ⟨xs, rfl, hxs, rfl⟩ := hs
  obtain ⟨ys, rfl, hys, rfl⟩ := ht
  refine ⟨xs ++ ys, map_append, ?_, ?_⟩
  · rw [map_append]
    exact hxs.append hys fun c hc => hdisjoint c hc
  · ext c
    rw [map_append]
    exact mem_append

end

theorem mem_cons_eq_insert (c : β) (l : List β) : {b | b ∈ c :: l} = Insert.insert c {b | b ∈ l} := by
  ext b
  exact mem_cons

theorem filter (hs : Represents f g ms S) {p : Member → Bool} {P : β → Prop} (hp : ∀ a, p (f a) = true ↔ P (g a)) :
    Represents f g (ms.filter p) {c ∈ S | P c} := by
  obtain ⟨xs, rfl, hxs, rfl⟩ := hs
  refine ⟨xs.filter (p ∘ f), (filter_map ..).symm, hxs.sublist (filter_sublist.map g), ?_⟩
  ext c
  simp only [mem_map, mem_filter, Function.comp_apply, Set.mem_ofPred_eq]
  constructor
  · rintro ⟨a, ⟨ha, hpa⟩, rfl⟩
    exact ⟨⟨a, ha, rfl⟩, (hp a).1 hpa⟩
  · rintro ⟨⟨a, ha, rfl⟩, hpa⟩
    exact ⟨a, ⟨ha, (hp a).2 hpa⟩, rfl⟩

variable (h : ∀ a b, (f a).equal (f b) = true ↔ g a = g b)

include h

theorem contains_iff (hs : Represents f g ms S) (a : α) : ms.contains (f a) = true ↔ g a ∈ S := by
  obtain ⟨xs, rfl, -, rfl⟩ := hs
  rw [contains, any_map, any_eq_true, Set.mem_ofPred_eq, mem_map]
  exact exists_congr fun b => and_congr_right fun _ => (h a b).trans eq_comm

theorem insert (hs : Represents f g ms S) (a : α) : Represents f g (ms.insert (f a)) (Insert.insert (g a) S) := by
  have hmem := hs.contains_iff h a
  unfold Members.insert
  split
  · next hany =>
    rw [Set.insert_eq_of_mem (hmem.1 hany)]
    exact hs
  · next hnone =>
    have hsingle : Represents f g [f a] {g a} := ⟨[a], rfl, nodup_singleton _, by ext c; simp⟩
    rw [Set.insert_eq, Set.union_comm]
    exact hs.append hsingle fun c hc hca => hnone (hmem.2 (Set.mem_singleton_iff.1 hca ▸ hc))

theorem foldl_insert (hs : Represents f g ms S) (xs : List α) :
    Represents f g ((xs.map f).foldl Members.insert ms) (S ∪ {c | c ∈ xs.map g}) := by
  induction xs generalizing ms S with
  | nil => simpa using hs
  | cons x xs ih =>
    rw [map_cons, map_cons, mem_cons_eq_insert, Set.union_insert, ← Set.insert_union]
    exact ih (hs.insert h x)

theorem ofList (xs : List α) : Represents f g (Members.ofList (xs.map f)) {c | c ∈ xs.map g} := by
  have := nil.foldl_insert h xs
  rwa [Set.empty_union] at this

variable (hs : Represents f g ms S) (ht : Represents f g ns T)

include hs

theorem union (ht : Represents f g ns T) : Represents f g (ms.union ns) (S ∪ T) := by
  obtain ⟨ys, rfl, -, rfl⟩ := ht
  exact hs.foldl_insert h ys

/-- Members that stand for a set are as they are when they are put together again. -/
theorem ofList_self : Members.ofList ms = ms := by
  obtain ⟨xs, rfl, hxs, -⟩ := hs
  suffices ∀ ys, ((ys ++ xs).map g).Nodup → (xs.map f).foldl Members.insert (ys.map f) = (ys ++ xs).map f
    from this [] hxs
  clear hxs
  induction xs with
  | nil => simp
  | cons x xs ih =>
    intro ys hnodup
    have hnew : ¬ (ys.map f).any (f x).equal = true := by
      intro hany
      obtain ⟨b, hb, hxb⟩ := any_eq_true.1 hany
      obtain ⟨y, hy, rfl⟩ := mem_map.1 hb
      rw [map_append, map_cons] at hnodup
      have hne := (nodup_append.1 hnodup).2.2 (g y) (mem_map_of_mem hy) (g x) mem_cons_self
      exact hne ((h x y).1 hxb).symm
    rw [map_cons, foldl_cons, Members.insert, if_neg hnew]
    have := ih (ys ++ [x])
    simpa using this (by simpa using hnodup)

theorem erase (a : α) : Represents f g (ms.erase (f a)) (S \ {g a}) :=
  hs.filter fun b => by rw [Bool.not_eq_true', ← Bool.not_eq_true, h a b, Set.mem_singleton_iff, eq_comm]

include ht

theorem difference : Represents f g (ms.difference ns) (S \ T) :=
  hs.filter fun b => by rw [Bool.not_eq_true', ← Bool.not_eq_true, ht.contains_iff h b]

theorem intersection : Represents f g (ms.intersection ns) (S ∩ T) := by
  unfold Members.intersection
  split
  · exact hs.filter (ht.contains_iff h)
  · rw [Set.inter_comm]
    exact ht.filter (hs.contains_iff h)

theorem symmetricDifference : Represents f g (ms.symmetricDifference ns) (symmDiff S T) :=
  (hs.difference h ht).append (ht.difference h hs) fun _ hc hc' => hc.2 hc'.1

theorem allIn_iff : Member.allIn ms ns = true ↔ S ⊆ T := by
  obtain ⟨xs, rfl, -, rfl⟩ := hs
  induction xs with
  | nil => simp [Member.allIn]
  | cons x xs ih =>
    have hx := ht.contains_iff h x
    rw [contains] at hx
    rw [map_cons, map_cons, Member.allIn, Bool.and_eq_true, ih, hx, mem_cons_eq_insert, Set.insert_subset_iff]

theorem isSubset_iff : ms.isSubset ns = true ↔ S ⊆ T := by
  rw [isSubset, Bool.and_eq_true, decide_eq_true_eq, hs.allIn_iff h ht, ← hs.ncard, ← ht.ncard]
  exact and_iff_right_of_imp fun hsub => Set.ncard_le_ncard hsub ht.finite

theorem equal_iff : ms.equal ns = true ↔ S = T := by
  rw [equal, Bool.and_eq_true, beq_iff_eq, hs.allIn_iff h ht, ← hs.ncard, ← ht.ncard]
  constructor
  · rintro ⟨hcard, hsub⟩
    exact Set.eq_of_subset_of_ncard_le hsub hcard.ge ht.finite
  · rintro rfl
    exact ⟨rfl, subset_rfl⟩

end Represents

end Utterance.Members

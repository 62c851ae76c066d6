import Mathlib.Data.List.InsertIdx
import Utterance.Proofs.Operations

/-!
# Places in lists

There are four ways to a place in a list: `xs @ i` and `xs / i` give the element there, `xs - i` makes a list without
it, and `pop(xs, i)` takes it out of the list. A place is counted from the start, or from the end if the number is
negative (`index?_eq_some_iff`). All four find the same place or fail together, and what the last two leave of the
list is the list without that place (`list_places_agree`).
-/

namespace Utterance

open Eval List

variable {i : Int} {n p : Nat} {op : Operation}

theorem index?_eq_some_iff : index? n i = some p ↔ -(n : Int) ≤ i ∧ i < n ∧ (p : Int) = if i < 0 then i + n else i := by
  unfold index?
  split <;> split <;> simp only [Option.some.injEq, reduceCtorEq, false_iff] <;> split <;> omega

theorem index?_eq_none_iff : index? n i = none ↔ ¬ (-(n : Int) ≤ i ∧ i < n) := by
  unfold index?
  split <;> split <;> simp only [reduceCtorEq, false_iff, true_iff] <;> omega

theorem index?_lt (h : index? n i = some p) : p < n := by
  obtain ⟨hlow, hhigh, hp⟩ := index?_eq_some_iff.1 h
  split at hp <;> omega

/-- An operation looks for a place and does something with it, or ends with an error and changes nothing. -/
inductive Finds (n : Nat) (i : Int) (v : World) (found : Nat → Outcome Ref) : Outcome Ref → Prop
  | place {p : Nat} : index? n i = some p → Finds n i v found (found p)
  | nowhere {d : Diagnostic} : index? n i = none → Finds n i v found (.error (.error d) v)

namespace Finds

variable {v : World} {found : Nat → Outcome Ref} {x : Outcome Ref}

theorem eq_found (h : Finds n i v found x) (hp : index? n i = some p) : x = found p := by
  cases h with
  | place hq => rw [Option.some.inj (hq.symm.trans hp)]
  | nowhere hq => exact absurd (hq.symm.trans hp) (Option.some_ne_none p).symm

theorem endsWithError (h : Finds n i v found x) (hp : index? n i = none) : EndsWithError x := by
  cases h with
  | place hq => exact absurd (hq.symm.trans hp) (Option.some_ne_none _)
  | @nowhere d _ => exact ⟨d, v, rfl⟩

end Finds

/-- In a world, two values are a list and an integer. -/
structure ListAndNumber (v : World) (xs k : Ref) (es : List Ref) (i : Int) : Prop where
  list : (v.cell xs).payload = .list es.toArray
  number : (v.cell k).payload = .number (.int i)

namespace ListAndNumber

variable {v : World} {xs k : Ref} {es : List Ref} (hv : ListAndNumber v xs k es i)

include hv

theorem index_finds (collection key : Node) (frame : Frame) :
    Finds es.length i v (fun p => .ok (es.toArray.getD p 0) v) (index collection key xs k frame v) := by
  rw [index, bind_ok (show cell xs v = .ok _ v from rfl), bind_ok (show cell k v = .ok _ v from rfl), hv.list,
    hv.number]
  dsimp only
  generalize hp : scalarIndex? es.toArray.size (.int i) = place
  cases place with
  | none => exact .nowhere hp
  | some p => exact .place hp

theorem div_finds : Finds es.length i v (fun p => .ok (es.toArray.getD p 0) v) (binary .div xs k v) := by
  show Finds _ _ _ _ (div _ _ v)
  rw [div, hv.list, hv.number]
  dsimp only
  generalize hp : scalarIndex? es.toArray.size (.int i) = place
  cases place with
  | none => exact .nowhere hp
  | some p => exact .place hp

theorem sub_finds : Finds es.length i v
    (fun p => .ok v.size
      (v.alloc { v.cell xs with payload := .list (es.toArray.eraseIdxIfInBounds p) })) (binary .sub xs k v) := by
  show Finds _ _ _ _ (sub _ _ v)
  rw [sub, hv.list, hv.number]
  dsimp only
  generalize hp : scalarIndex? es.toArray.size (.int i) = place
  cases place with
  | none => exact .nowhere hp
  | some p => exact .place hp

theorem pop_finds (c : Call) : Finds es.length i v
    (fun p => .ok (es.toArray.getD p 0) (v.modifyCell xs (Cell.mapElements (·.eraseIdxIfInBounds p))))
    (builtin evaluate c .pop [xs, k] v) := by
  show Finds _ _ _ _ (c.pop xs k v)
  have hlist : c.list xs "First argument must be list" v = .ok es.toArray v := by
    rw [Call.list, bind_ok (show payload xs v = .ok _ v from rfl), hv.list]
    rfl
  have hnumber : c.number k "Second argument must be number" v = .ok (.int i) v := by
    rw [Call.number, bind_ok (show payload k v = .ok _ v from rfl), hv.number]
    rfl
  rw [Call.pop, bind_ok hlist, bind_ok hnumber]
  generalize hp : scalarIndex? es.toArray.size (.int i) = place
  cases place with
  | none => exact .nowhere hp
  | some p => exact .place hp

theorem enters {b : Option Builtin} {inner : Frame} {args : List Ref} {u : World}
    (h : Enters default b inner args v u) : ListAndNumber u xs k es i :=
  ⟨(h.payload xs).trans hv.list, (h.payload k).trans hv.number⟩

theorem performs_pop (hp : index? es.length i = some p) : Performs v (.call .pop) [xs, k] fun x =>
    ∃ r u, x = .ok r u ∧ (u.cell r).payload = (u.cell (es.toArray.getD p 0)).payload ∧
      (u.cell xs).payload = .list (es.toArray.eraseIdxIfInBounds p) ∧ KeepsBut {.cell xs} v u := by
  refine ⟨fun h => ?_⟩
  obtain ⟨c, u, he, hok, -⟩ := h.evaluate_call rfl
  obtain ⟨new, hnew, hu⟩ := hok (((hv.enters he).pop_finds c).eq_found hp)
  have hlist := (hv.enters he).list
  have hxs := Store.lt_of_list hlist
  have hcell : (u.modifyCell xs (Cell.mapElements (·.eraseIdxIfInBounds p))).cell xs =
      (u.cell xs).mapElements (·.eraseIdxIfInBounds p) := by
    rw [World.cell_modifyCell, if_pos ⟨rfl, hxs⟩]
  have hsize := u.size_modifyCell xs (Cell.mapElements (·.eraseIdxIfInBounds p))
  refine ⟨_, _, hu, ?_, ?_, ?_⟩
  · rw [World.cell, World.cell_alloc_size, hnew, World.cell_alloc]
    split
    · exact hnew.symm
    · rfl
  · rw [World.cell_alloc, if_neg (by rw [hsize]; exact Nat.ne_of_lt hxs), hcell, Cell.mapElements, hlist]
  · have hchange := (KeepsBut.of_mapElements u xs (·.eraseIdxIfInBounds p)).mono (T := {.cell xs}) fun k hk => hk.1
    exact ((he.keeps.trans hchange).mono (Set.empty_union _).subset).alloc new

/-- What the operations come to where the number means a place. -/
theorem found (hp : index? es.length i = some p) : Performs v .place [xs, k] (· = .ok (es.toArray.getD p 0) v) ∧
    Performs v (.operator .div) [xs, k] (fun x => ∃ u, x = .ok (es.toArray.getD p 0) u ∧ KeepsBut ∅ v u) ∧
    Performs v (.call .pop) [xs, k] (fun x => ∃ r u, x = .ok r u ∧
      (u.cell r).payload = (u.cell (es.toArray.getD p 0)).payload ∧
      (u.cell xs).payload = .list (es.eraseIdx p).toArray ∧ KeepsBut {.cell xs} v u) ∧
    Performs v (.operator .sub) [xs, k] (MakesNew v (.list (es.eraseIdx p).toArray)) := by
  have herase : es.toArray.eraseIdxIfInBounds p = (es.eraseIdx p).toArray := by
    rw [Array.eraseIdxIfInBounds_eq, dif_pos (show p < es.toArray.size from index?_lt hp), eraseIdx_toArray]
  rw [← herase]
  refine ⟨.place fun collection key frame => (hv.index_finds collection key frame).eq_found hp, ⟨fun h => ?_⟩,
    hv.performs_pop hp, .makes (hv.sub_finds.eq_found hp)⟩
  exact h.evaluate_operator (hv.div_finds.eq_found hp)

theorem nowhere (hp : index? es.length i = none)
    (hop : op ∈ [.place, .operator .div, .call .pop, .operator .sub]) : Performs v op [xs, k] EndsWithError := by
  simp only [mem_cons, not_mem_nil, or_false] at hop
  rcases hop with rfl | rfl | rfl | rfl
  · exact .place fun collection key frame => (hv.index_finds collection key frame).endsWithError hp
  · exact .refuses (hv.div_finds.endsWithError hp)
  · exact .callRefuses rfl fun c u hu => ((hv.enters hu).pop_finds c).endsWithError hp
  · exact .refuses (hv.sub_finds.endsWithError hp)

theorem succeeds (hp : index? es.length i = some p)
    (hop : op ∈ [.place, .operator .div, .call .pop, .operator .sub]) : Performs v op [xs, k] Succeeds := by
  refine ⟨fun h => ?_⟩
  obtain ⟨hplace, hdiv, hpop, hsub⟩ := hv.found hp
  simp only [mem_cons, not_mem_nil, or_false] at hop
  rcases hop with rfl | rfl | rfl | rfl
  · exact ⟨_, _, hplace.of h⟩
  · obtain ⟨u, hu, -⟩ := hdiv.of h
    exact ⟨_, u, hu⟩
  · obtain ⟨r, u, hu, -⟩ := hpop.of h
    exact ⟨r, u, hu⟩
  · exact (hsub.of h).returns.succeeds

end ListAndNumber

/-- `xs @ i`, `xs / i`, `pop(xs, i)` and `xs - i` succeed for the same integers, those from minus the length of the
list up to below its length, and end with an error for all others. Where they succeed, the first two give the same
element, `pop` gives a value with the contents of that element and leaves the list without that place, and the
difference is a new list that is what is left, while the list itself stays; with the element put back in its place
this is the list again. -/
theorem list_places_agree {v : World} {xs k : Ref} {es : List Ref} {i : Int}
    (hxs : (v.cell xs).payload = .list es.toArray) (hk : (v.cell k).payload = .number (.int i)) :
    (∀ op ∈ [.place, .operator .div, .call .pop, .operator .sub], Performs v op [xs, k] fun x =>
      (Succeeds x ↔ -(es.length : Int) ≤ i ∧ i < es.length) ∧
      (¬ (-(es.length : Int) ≤ i ∧ i < es.length) → EndsWithError x)) ∧
    (-(es.length : Int) ≤ i → i < es.length → ∃ (p : Nat) (e : Ref), (p : Int) = (if i < 0 then i + es.length else i) ∧
      es[p]? = some e ∧ (es.eraseIdx p).insertIdx p e = es ∧
      Performs v .place [xs, k] (· = .ok e v) ∧
      Performs v (.operator .div) [xs, k] (fun x => ∃ u, x = .ok e u ∧ KeepsBut ∅ v u) ∧
      Performs v (.call .pop) [xs, k] (fun x => ∃ r u, x = .ok r u ∧
        (u.cell r).payload = (u.cell e).payload ∧
        (u.cell xs).payload = .list (es.eraseIdx p).toArray ∧ KeepsBut {.cell xs} v u) ∧
      Performs v (.operator .sub) [xs, k] (MakesNew v (.list (es.eraseIdx p).toArray))) := by
  have hv : ListAndNumber v xs k es i := ⟨hxs, hk⟩
  cases hp : index? es.length i with
  | none =>
    have hno := index?_eq_none_iff.1 hp
    refine ⟨fun op hop => ⟨fun h => ?_⟩, fun hlow hhigh => absurd ⟨hlow, hhigh⟩ hno⟩
    have herror := (hv.nowhere hp hop).of h
    exact ⟨iff_of_false herror.not_succeeds hno, fun _ => herror⟩
  | some p =>
    obtain ⟨hlow, hhigh, hplace⟩ := index?_eq_some_iff.1 hp
    have hlt := index?_lt hp
    refine ⟨fun op hop => ⟨fun h => ?_⟩, fun _ _ => ⟨p, es[p], hplace, getElem?_eq_getElem hlt, ?_, ?_⟩⟩
    · exact ⟨iff_of_true ((hv.succeeds hp hop).of h) ⟨hlow, hhigh⟩, fun hno => absurd ⟨hlow, hhigh⟩ hno⟩
    · exact insertIdx_eraseIdx_getElem hlt
    · have hget : es.toArray.getD p 0 = es[p] := by
        rw [Array.getD_eq_getD_getElem?, getElem?_toArray, getElem?_eq_getElem hlt, Option.getD_some]
      rw [← hget]
      exact hv.found hp

namespace ListPlaces

open Sketch

/-- The list `[10, 20]` as `xs`, minus one as `i`, and the function `pop`. -/
def world : World :=
  .small [integer 10, integer 20, .fresh (.list #[0, 1]), integer (-1), .fresh (.builtin .pop)]
    [("xs", 2), ("i", 3), ("pop", 4)]

def pop : Node := .apply default (mention "pop") [mention "xs", mention "i"]

/-- The world in which the function is found, and the one in which its arguments are evaluated. -/
def called : World := after ((do place (← copy (← evaluateTo 1 (mention "pop") top)) default) world)

def supplied : World := after ([mention "xs", mention "i"].mapM (evaluateTo 1 · top) called)

/-- `pop(xs, i)` takes the last element out of the list. -/
theorem list_places_agree_last : Applies top (.call .pop) [2, 6] pop world supplied ∧
    (supplied.cell 2).payload = .list [0, 1].toArray ∧ (supplied.cell 6).payload = .number (.int (-1)) ∧
    ∃ r u, evaluate pop top world = .ok r u ∧ (u.cell 2).payload = .list [0].toArray := by
  have happlies : Applies top (.call .pop) [2, 6] pop world supplied :=
    .call_of_evaluateTo 1 (u := called) rfl rfl rfl rfl
  have hlist : (supplied.cell 2).payload = .list [0, 1].toArray := rfl
  have hnumber : (supplied.cell 6).payload = .number (.int (-1)) := rfl
  refine ⟨happlies, hlist, hnumber, ?_⟩
  obtain ⟨p, e, hp, -, -, -, -, hpop, -⟩ := (list_places_agree hlist hnumber).2 (by decide) (by decide)
  obtain ⟨r, u, hu, -, hleft, -⟩ := hpop.of happlies
  obtain rfl : p = 1 := by
    simp only [length_cons, length_nil] at hp
    omega
  exact ⟨r, u, hu, hleft⟩

end ListPlaces

end Utterance

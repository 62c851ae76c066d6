import Utterance.Proofs.Elements
import Utterance.Proofs.Operations

/-!
# Storage of sets

A set stores forms of its elements in place of values. This is faithful: a form gives its value back, equal values and
only these have equal forms, and whatever a program does with sets it does with the sets of their elements in the
mathematical sense (`set_storage_faithful`). This holds of sets of integers, text values and sets, nested in whatever
way.
-/

namespace Utterance

open Eval Element Performs

def MakesSet (v : World) (S : Set Class) (x : Outcome Ref) : Prop :=
  ∃ as, MakesNew v (set as).payload x ∧ classes as = S

/-- An evaluation gives the truth value of a statement. -/
def Tells (v : World) (P : Prop) (x : Outcome Ref) : Prop :=
  ∃ b : Bool, MakesNew v (truthNumber b) x ∧ (b = true ↔ P)

/-- The functions and operators of sets, applied to the set `x` of the elements `as`: what they make and tell is what
the operations of mathematics do with the classes of the elements. -/
structure SetLaws (v : World) (x : Ref) (as : List Element) : Prop where
  len : Performs v (.call .len) [x] (MakesNew v (.number (.int (classes as).ncard)))
  contains {e} {a : Element} : (v.cell e).payload = a.payload →
    Performs v (.call .contains) [x, e] (Tells v (∃ b ∈ as, b.Equal a))
  add {e} {a : Element} : (v.cell e).payload = a.payload →
    Performs v (.call .add) [x, e] (MakesSet v (insert a.cls (classes as)))
  remove {e} {a : Element} : (v.cell e).payload = a.payload → a.cls ∈ classes as →
    Performs v (.call .remove) [x, e] (MakesSet v (classes as \ {a.cls}))
  removeMissing {e} {a : Element} : (v.cell e).payload = a.payload → a.cls ∉ classes as →
    Performs v (.call .remove) [x, e] EndsWithError
  union {y bs} : (v.cell y).payload = (set bs).payload →
    Performs v (.operator .add) [x, y] (MakesSet v (classes as ∪ classes bs))
  difference {y bs} : (v.cell y).payload = (set bs).payload →
    Performs v (.operator .sub) [x, y] (MakesSet v (classes as \ classes bs))
  intersection {y bs} : (v.cell y).payload = (set bs).payload →
    Performs v (.operator .intersect) [x, y] (MakesSet v (classes as ∩ classes bs))
  symmetricDifference {y bs} : (v.cell y).payload = (set bs).payload →
    Performs v (.operator .symmetricDifference) [x, y] (MakesSet v (symmDiff (classes as) (classes bs)))
  equal {y bs} : (v.cell y).payload = (set bs).payload →
    Performs v (.operator .eq) [x, y] (Tells v (classes as = classes bs))
  isSubset {y bs} : (v.cell y).payload = (set bs).payload →
    Performs v (.call .isSubset) [x, y] (Tells v (classes as ⊆ classes bs))
  isSuperset {y bs} : (v.cell y).payload = (set bs).payload →
    Performs v (.call .isSuperset) [x, y] (Tells v (classes bs ⊆ classes as))

section

variable {v : World} {op : Operation} {rs : List Ref}

theorem Performs.makesSet {ms : Members} {S : Set Class} (h : Performs v op rs (MakesNew v (.set ms)))
    (hms : Represents ms S) : Performs v op rs (MakesSet v S) := by
  obtain ⟨as, rfl, hclasses⟩ := hms.exists_elements
  exact ⟨fun ha => ⟨as, h.of ha, hclasses⟩⟩

theorem Performs.tells {b : Bool} {P : Prop} (h : Performs v op rs (MakesNew v (truthNumber b))) (hb : b = true ↔ P) :
    Performs v op rs (Tells v P) :=
  ⟨fun ha => ⟨b, h.of ha, hb⟩⟩

end

section

variable {v : World} {x y e : Ref} {ms ns : Members} (hx : (v.cell x).payload = .set ms)
  (hy : (v.cell y).payload = .set ns)

include hx hy

theorem binary_union : binary .add x y v = setResult (v.cell x) (v.cell y) (ms.union ns) v := by
  show add _ _ _ v = _
  rw [add, hx, hy]

theorem binary_difference : binary .sub x y v = setResult (v.cell x) (v.cell y) (ms.difference ns) v := by
  show sub _ _ v = _
  rw [sub, hx, hy]

theorem binary_intersection : binary .intersect x y v = setResult (v.cell x) (v.cell y) (ms.intersection ns) v := by
  show onSets _ _ _ _ v = _
  rw [onSets, hx, hy]

theorem binary_symmetricDifference : binary .symmetricDifference x y v =
    setResult (v.cell x) (v.cell y) (ms.symmetricDifference ns) v := by
  show onSets _ _ _ _ v = _
  rw [onSets, hx, hy]

theorem binary_equal : binary .eq x y v = resultOf (v.cell x) (truthNumber (ms.equal ns)) v := by
  show eq _ _ v = _
  rw [eq, hx, hy]
  rfl

theorem compareSets_eq (f : Members → Members → Bool) (c : Call) :
    Call.compareSets f c x y v = newTruth (f ms ns) v := by
  have hboth : c.bothSets x y v = .ok ((v.cell x, ms), (v.cell y, ns)) v := by
    rw [Call.bothSets, bind_ok (show cell x v = .ok _ v from rfl), bind_ok (show cell y v = .ok _ v from rfl), hx, hy]
    rfl
  rw [Call.compareSets, bind_ok hboth]

omit hy

theorem len_eq (c : Call) : c.len x v = newNumber ms.length v := by
  rw [Call.len, bind_ok (show payload x v = .ok _ v from rfl), hx]

variable {m : Member} (he : v.store.member e = pure m)

include he

omit hx in
theorem member_ok : ofPrinting (v.store.member e) v = .ok m v := by
  rw [he]
  rfl

theorem contains_eq (c : Call) : c.contains x e v = newTruth (ms.contains m) v := by
  rw [Call.contains, bind_ok (show payload x v = .ok _ v from rfl), hx]
  dsimp only
  rw [bind_ok (show store v = .ok _ v from rfl), bind_ok (member_ok he)]

theorem add_eq (c : Call) : c.add x e v = alloc { v.cell x with payload := .set (ms.insert m) } v := by
  rw [Call.add, bind_ok (show cell x v = .ok _ v from rfl), hx]
  dsimp only
  rw [bind_ok (show store v = .ok _ v from rfl), bind_ok (member_ok he)]

theorem remove_eq (c : Call) (hm : ms.contains m = true) :
    c.remove x e v = alloc { v.cell x with payload := .set (ms.erase m) } v := by
  rw [Call.remove, bind_ok (show cell x v = .ok _ v from rfl), hx]
  dsimp only
  rw [bind_ok (show store v = .ok _ v from rfl), bind_ok (member_ok he), if_pos hm]

theorem remove_missing (c : Call) (hm : ¬ ms.contains m = true) : EndsWithError (c.remove x e v) := by
  rw [Call.remove, bind_ok (show cell x v = .ok _ v from rfl), hx]
  dsimp only
  rw [bind_ok (show store v = .ok _ v from rfl), bind_ok (member_ok he), if_neg hm]
  exact ⟨_, _, rfl⟩

end

variable {as : List Element} {rs : List Ref}

theorem mapM_member {s : Store} (h : List.Forall₂ (fun r a => (s.cell r).payload = a.payload) rs as) :
    rs.mapM s.member = pure (members as) := by
  induction h with
  | nil =>
    rw [members]
    rfl
  | cons hr _ ih =>
    rw [List.mapM_cons, member_of_payload hr, pure_bind, ih, pure_bind, members]

theorem membersOf_eq {s : Store} (h : List.Forall₂ (fun r a => (s.cell r).payload = a.payload) rs as) :
    s.membersOf rs = pure (Members.ofList (members as)) := by
  rw [Store.membersOf, mapM_member h, pure_bind]

theorem performs_setFromList {v : World} {l : Ref} (hl : (v.cell l).payload = .list rs.toArray)
    (hrs : List.Forall₂ (fun r a => (v.cell r).payload = a.payload) rs as) :
    Performs v (.call .setFromList) [l] (MakesNew v (set as).payload) := by
  refine .callMakes rfl fun c u he => ⟨.fresh (set as).payload, rfl, ?_⟩
  have hlist : c.list l "Argument must be a list" u = .ok rs.toArray u := by
    rw [Call.list, bind_ok (show payload l u = .ok _ u from rfl), he.payload l, hl]
    rfl
  have hmembers : u.store.membersOf rs.toArray.toList = pure (Members.ofList (members as)) :=
    membersOf_eq (hrs.imp fun r a hr => (he.payload r).trans hr)
  show c.setFromList l u = _
  rw [Call.setFromList, bind_ok hlist, bind_ok (show store u = .ok _ u from rfl), hmembers]
  rfl

theorem setLaws {v : World} {x : Ref} (hx : (v.cell x).payload = (set as).payload) : SetLaws v x as where
  len := by
    refine .callMakes rfl fun c u he => ?_
    rw [(represents_ofList as).ncard]
    exact ⟨_, rfl, len_eq ((he.payload x).trans hx) c⟩
  contains {e a} ha := by
    have hcontains := (represents_ofList as).contains_iff equal_member_iff_cls a
    rw [mem_classes_iff] at hcontains
    refine tells (.callMakes rfl fun c u he => ⟨.fresh (truthNumber _), rfl, ?_⟩) hcontains
    exact contains_eq ((he.payload x).trans hx) (member_of_payload ((he.payload e).trans ha)) c
  add {e a} ha := by
    refine makesSet (.callMakes rfl fun c u he => ?_) ((represents_ofList as).insert equal_member_iff_cls a)
    exact ⟨_, rfl, add_eq ((he.payload x).trans hx) (member_of_payload ((he.payload e).trans ha)) c⟩
  remove {e a} ha hmem := by
    have hcontains := ((represents_ofList as).contains_iff equal_member_iff_cls a).2 hmem
    refine makesSet (.callMakes rfl fun c u he => ?_) ((represents_ofList as).erase equal_member_iff_cls a)
    exact ⟨_, rfl, remove_eq ((he.payload x).trans hx) (member_of_payload ((he.payload e).trans ha)) c hcontains⟩
  removeMissing {e a} ha hmem := by
    have hcontains := mt ((represents_ofList as).contains_iff equal_member_iff_cls a).1 hmem
    refine .callRefuses rfl fun c u he => ?_
    exact remove_missing ((he.payload x).trans hx) (member_of_payload ((he.payload e).trans ha)) c hcontains
  union {y bs} hy :=
    makesSet (.makes (binary_union hx hy))
      ((represents_ofList as).union equal_member_iff_cls (represents_ofList bs))
  difference {y bs} hy :=
    makesSet (.makes (binary_difference hx hy))
      ((represents_ofList as).difference equal_member_iff_cls (represents_ofList bs))
  intersection {y bs} hy :=
    makesSet (.makes (binary_intersection hx hy))
      ((represents_ofList as).intersection equal_member_iff_cls (represents_ofList bs))
  symmetricDifference {y bs} hy :=
    makesSet (.makes (binary_symmetricDifference hx hy))
      ((represents_ofList as).symmetricDifference equal_member_iff_cls (represents_ofList bs))
  equal {y bs} hy :=
    tells (.makes (binary_equal hx hy))
      ((represents_ofList as).equal_iff equal_member_iff_cls (represents_ofList bs))
  isSubset {y bs} hy := by
    refine tells (.callMakes rfl fun c u he => ⟨.fresh (truthNumber _), rfl, ?_⟩)
      ((represents_ofList as).isSubset_iff equal_member_iff_cls (represents_ofList bs))
    exact compareSets_eq ((he.payload x).trans hx) ((he.payload y).trans hy) _ c
  isSuperset {y bs} hy := by
    refine tells (.callMakes rfl fun c u he => ⟨.fresh (truthNumber _), rfl, ?_⟩)
      ((represents_ofList bs).isSubset_iff equal_member_iff_cls (represents_ofList as))
    exact compareSets_eq ((he.payload x).trans hx) ((he.payload y).trans hy) (fun ms ns => ns.isSubset ms) c

/-- What a set stores of a value gives the value back, and is stored of it again. Two values have equal forms exactly
if they are equal. The set of a list stands for the elements of the list, and all that is done with such sets is what
mathematics does with the sets of their elements. -/
theorem set_storage_faithful :
    (∀ (a : Element) {s : Store} {r : Ref}, (s.cell r).payload = a.member.value → s.member r = pure a.member) ∧
    (∀ (a b : Element) {s : Store} {r q : Ref}, (s.cell r).payload = a.payload → (s.cell q).payload = b.payload →
      ∃ m n, s.member r = pure m ∧ s.member q = pure n ∧ (m.equal n = true ↔ a.Equal b)) ∧
    (∀ {v : World} {l : Ref} {rs : List Ref} {as : List Element}, (v.cell l).payload = .list rs.toArray →
      List.Forall₂ (fun r a => (v.cell r).payload = a.payload) rs as →
      Performs v (.call .setFromList) [l] (MakesNew v (set as).payload)) ∧
    ∀ {v : World} {x : Ref} {as : List Element}, (v.cell x).payload = (set as).payload →
      SetLaws v x as := by
  refine ⟨fun a s r h => ?_, fun a b s r q hr hq => ?_, fun hl hrs => performs_setFromList hl hrs, setLaws⟩
  · rw [Store.member_of_value h, restored_member]
  · exact ⟨_, _, member_of_payload hr, member_of_payload hq, equal_member_iff⟩

namespace SetStorage

open Sketch

/-- The empty set as `e`, the set of the number one and the empty set as `s`, and the function `contains`. -/
def world : World :=
  .small [.fresh (.set []), .fresh (.set [.number (.int 1), .set []]), .fresh (.builtin .contains)]
    [("e", 0), ("s", 1), ("contains", 2)]

def call : Node := .apply default (mention "contains") [mention "s", mention "e"]

/-- The world in which the function is found, and the one in which its arguments are evaluated. -/
def called : World := after ((do place (← copy (← evaluateTo 1 (mention "contains") top)) default) world)

def supplied : World := after ([mention "s", mention "e"].mapM (evaluateTo 1 · top) called)

/-- The empty set is in the set. -/
theorem set_storage_faithful_nested : (supplied.cell 4).payload = (set [.int 1, .set []]).payload ∧
    (supplied.cell 5).payload = (set []).payload ∧
    Applies top (.call .contains) [4, 5] call world supplied ∧
    Returns (truthNumber true) (evaluate call top world) := by
  have happlies : Applies top (.call .contains) [4, 5] call world supplied :=
    .call_of_evaluateTo 1 (u := called) rfl rfl rfl rfl
  have hset : (supplied.cell 4).payload = (set [.int 1, .set []]).payload := rfl
  have helement : (supplied.cell 5).payload = (set []).payload := rfl
  refine ⟨hset, helement, happlies, ?_⟩
  obtain ⟨-, -, -, hlaws⟩ := set_storage_faithful
  obtain ⟨b, hmade, hb⟩ := ((hlaws hset).contains helement).of happlies
  rw [hb.2 ⟨.set [], by simp, .refl _⟩] at hmade
  exact hmade.returns

end SetStorage

end Utterance

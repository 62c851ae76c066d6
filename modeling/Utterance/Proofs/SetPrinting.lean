import Utterance.Proofs.PrintedForms
import Utterance.Proofs.QuotedTexts
import Utterance.Proofs.SetStorage

/-!
# Printed sets

A set is printed in the order of texts that tell its members (`Element.key_injective`). So it does not matter in which
order the members are stored: sets of integers and text values with the same elements have the same forms, and each
element is written in them once (`Element.Written`, `set_printing_canonical`).
-/

namespace Utterance

open Eval Element Member List

variable {e : Fault} {f : Form}

namespace Element

def IsAtom (a : Element) : Prop := (∃ n, a = .int n) ∨ ∃ s, a = .string s

theorem IsAtom.eq_of_equal {a b : Element} (ha : a.IsAtom) (h : a.Equal b) : b = a := by
  rcases ha with ⟨n, rfl⟩ | ⟨s, rfl⟩
  · exact Equal.int_iff.1 h
  · exact Equal.string_iff.1 h

def key (a : Element) : Except Fault String := a.member.sortText

def form (f : Form) (a : Element) : Except Fault String := a.member.printed f

/-- How integers and text values are written in a printed set. -/
inductive Written : Form → Element → String → Prop
  | int {f n} : (Nat.toDigits 10 n.natAbs).length ≤ Fault.digitLimit → Written f (.int n) (toString n)
  | plain {s} : Written .plain (.string (some s)) s
  | quoted {s} : Written .quoted (.string (some s)) ("\"" ++ s ++ "\"")
  | nothing : Written .quoted (.string none) "\"None\""

def textKey : Option String → String
  | some s => Text.quoted s
  | none => "None"

theorem key_int (n : Int) : (int n).key = (Scalar.integerText n).map fun t => "('number', " ++ t ++ ")" := by
  rw [key, member, sortText]
  rfl

theorem key_string (s : Option String) : (string s).key = .ok ("('string', " ++ textKey s ++ ")") := by
  rw [key, member, sortText]
  cases s <;> rfl

theorem form_int (f : Form) (n : Int) : (int n).form f = Scalar.integerText n := by
  rw [form, member, printed]
  rfl

theorem integerText_iff {n : Int} {t : String} : Scalar.integerText n = .ok t ↔
    (Nat.toDigits 10 n.natAbs).length ≤ Fault.digitLimit ∧ toString n = t := by
  have hdigits : String.ofList (if n < 0 then '-' :: Nat.toDigits 10 n.natAbs else Nat.toDigits 10 n.natAbs) =
      toString n := by
    cases n with
    | ofNat n => rfl
    | negSucc n =>
      rw [if_pos (Int.negSucc_lt_zero n)]
      exact String.ofList_cons
  unfold Scalar.integerText
  dsimp only
  rw [hdigits]
  split <;> simp <;> omega

theorem form_iff_written {a : Element} {f : Form} {t : String} (ha : a.IsAtom) : a.form f = .ok t ↔ Written f a t := by
  rcases ha with ⟨n, rfl⟩ | ⟨s, rfl⟩
  · rw [form_int, integerText_iff]
    refine ⟨fun ⟨hn, ht⟩ => ht ▸ .int hn, fun h => ?_⟩
    cases h with | int hn => exact ⟨hn, rfl⟩
  · rw [form, member, printed]
    refine ⟨fun h => ?_, fun h => by cases h <;> rfl⟩
    cases s <;> cases f <;> cases h <;> constructor

theorem textKey_injective : Function.Injective textKey := by
  intro s t h
  cases s <;> cases t
  · rfl
  · exact absurd h.symm (Text.quoted_ne_none _)
  · exact absurd h (Text.quoted_ne_none _)
  · exact congrArg some (Text.quoted_injective h)

variable {t : String}

theorem of_map_ok {x : Except Fault String} {g : String → String} (h : x.map g = .ok t) :
    ∃ u, x = .ok u ∧ g u = t := by
  cases x with
  | error e => cases h
  | ok u => exact ⟨u, rfl, Except.ok.inj h⟩

variable {a b : Element}

theorem key_injective (ha : a.IsAtom) (hb : b.IsAtom) (hat : a.key = .ok t) (hbt : b.key = .ok t) : a = b := by
  rcases ha with ⟨n, rfl⟩ | ⟨s, rfl⟩ <;> rcases hb with ⟨m, rfl⟩ | ⟨u, rfl⟩
  · rw [key_int] at hat hbt
    obtain ⟨x, hx, rfl⟩ := of_map_ok hat
    obtain ⟨y, hy, hxy⟩ := of_map_ok hbt
    obtain rfl : y = x := by simpa using hxy
    rw [Scalar.integerText_injective hx hy]
  · rw [key_int] at hat
    obtain ⟨x, -, rfl⟩ := of_map_ok hat
    rw [key_string, Except.ok.injEq] at hbt
    simp [← String.toList_inj] at hbt
  · rw [key_int] at hbt
    obtain ⟨x, -, rfl⟩ := of_map_ok hbt
    rw [key_string, Except.ok.injEq] at hat
    simp [← String.toList_inj] at hat
  · rw [key_string, Except.ok.injEq] at hat hbt
    have hkeys : textKey s = textKey u := by simpa using hat.trans hbt.symm
    rw [textKey_injective hkeys]

theorem key_error (ha : a.IsAtom) (h : a.key = .error e) : e = .tooManyDigits := by
  rcases ha with ⟨n, rfl⟩ | ⟨s, rfl⟩
  · rw [key_int] at h
    cases hn : Scalar.integerText n with
    | ok t =>
      rw [hn] at h
      cases h
    | error e' =>
      rw [hn] at h
      cases h
      unfold Scalar.integerText at hn
      dsimp only at hn
      split at hn <;> cases hn
      rfl
  · rw [key_string] at h
    cases h

/-- An element with a key is printed, unless it is a text value that holds nothing. -/
theorem form_error (ha : a.IsAtom) (hk : a.key = .ok t) (h : a.form f = .error e) : e = .absentText := by
  rcases ha with ⟨n, rfl⟩ | ⟨s, rfl⟩
  · rw [form_int] at h
    rw [key_int, h] at hk
    cases hk
  · rw [form, member, printed] at h
    cases s <;> cases f <;> cases h
    rfl

theorem key_of_form (ha : a.IsAtom) (h : a.form f = .ok t) : ∃ u, a.key = .ok u := by
  rcases ha with ⟨n, rfl⟩ | ⟨s, rfl⟩
  · rw [form_int] at h
    rw [key_int, h]
    exact ⟨_, rfl⟩
  · exact ⟨_, key_string s⟩

end Element

section

variable {α : Type} {l : List α} {x : α → Except Fault String}

def textOf : Except Fault String → String
  | .ok t => t
  | .error _ => ""

theorem mapM_ok (h : ∀ a ∈ l, ∃ t, x a = .ok t) : l.mapM x = .ok (l.map fun a => textOf (x a)) := by
  induction l with
  | nil => rfl
  | cons a l ih =>
    obtain ⟨t, ht⟩ := h a mem_cons_self
    rw [mapM_cons, ih fun b hb => h b (mem_cons_of_mem a hb), map_cons, ht]
    rfl

theorem mapM_error (he : ∀ a ∈ l, ∀ {e'}, x a = .error e' → e' = e)
    (h : ¬ ∀ a ∈ l, ∃ t, x a = .ok t) : l.mapM x = .error e := by
  induction l with
  | nil => exact absurd nofun h
  | cons a l ih =>
    rw [mapM_cons]
    cases ha : x a with
    | error e' =>
      rw [he a mem_cons_self ha]
      rfl
    | ok t =>
      rw [ih (fun b hb => he b (mem_cons_of_mem a hb)) fun hall => h fun b hb => ?_]
      · rfl
      · rcases mem_cons.1 hb with rfl | hb
        · exact ⟨t, ha⟩
        · exact hall b hb

theorem sortedBy_map (l : List α) (k t : α → String) :
    sortedBy (l.map k) (l.map t) = (l.mergeSort fun a b => k a ≤ k b).map t := by
  have hsort := map_mergeSort (l := l) (f := fun a => (k a, t a)) (r := fun a b => decide (k a ≤ k b))
    (s := fun a b => decide (a.1 ≤ b.1)) fun _ _ _ _ => rfl
  rw [sortedBy, zip_map', ← hsort, map_map]
  rfl

theorem mergeSort_eq_of_perm {l' : List α} {k : α → String} (hp : l.Perm l')
    (hk : ∀ a ∈ l, ∀ b ∈ l, k a = k b → a = b) :
    (l.mergeSort fun a b => k a ≤ k b) = l'.mergeSort fun a b => k a ≤ k b := by
  have hsorted (m : List α) : (m.mergeSort fun a b => k a ≤ k b).Pairwise fun a b => decide (k a ≤ k b) = true := by
    refine pairwise_mergeSort (fun a b c hab hbc => ?_) (fun a b => ?_) m
    · exact decide_eq_true (String.le_trans (of_decide_eq_true hab) (of_decide_eq_true hbc))
    · rw [Bool.or_eq_true, decide_eq_true_eq, decide_eq_true_eq]
      exact String.le_total (k a) (k b)
  have hperm := (mergeSort_perm l fun a b => k a ≤ k b).trans
    (hp.trans (mergeSort_perm l' fun a b => k a ≤ k b).symm)
  refine hperm.eq_of_pairwise (fun a b ha hb hab hba => hk a ?_ b ?_ ?_) (hsorted l) (hsorted l')
  · exact (mergeSort_perm l _).mem_iff.1 ha
  · exact hp.mem_iff.2 ((mergeSort_perm l' _).mem_iff.1 hb)
  · exact String.le_antisymm (of_decide_eq_true hab) (of_decide_eq_true hba)

end

namespace Element

theorem sortTexts_map (es : List Element) : sortTexts (es.map member) = es.mapM key := by
  induction es with
  | nil => rw [map_nil, sortTexts, mapM_nil]
  | cons a es ih =>
    rw [map_cons, sortTexts, mapM_cons, ih]
    rfl

theorem printedAll_map (f : Form) (es : List Element) :
    printedAll f (restoredAll (es.map member)) = es.mapM (form f) := by
  induction es with
  | nil => rw [map_nil, restoredAll, printedAll, mapM_nil]
  | cons a es ih =>
    rw [map_cons, restoredAll, printedAll, mapM_cons, ih, restored_member]
    rfl

/-- The elements in the order in which they are printed. -/
def sorted (es : List Element) : List Element := es.mergeSort fun a b => textOf a.key ≤ textOf b.key

variable {es : List Element}

variable (hs : ∀ a ∈ es, a.IsAtom)
include hs

/-- Where all elements have forms, the set has one, with the form of each element. -/
theorem printedSet_ok (h : ∀ a ∈ es, ∃ t, a.form f = .ok t) :
    printedSet f (es.map member) = .ok (bracketed ((sorted es).map fun a => textOf (a.form f))) := by
  have hkeys : ∀ a ∈ es, ∃ t, a.key = .ok t := fun a ha => (h a ha).elim fun _ ht => key_of_form (hs a ha) ht
  rw [printedSet, sortTexts_map, printedAll_map, mapM_ok hkeys, mapM_ok h]
  exact congrArg (fun texts => Except.ok (bracketed texts)) (sortedBy_map es _ _)

/-- Else the fault tells whether there is an element without a key. -/
theorem printedSet_error (h : ¬ ∀ a ∈ es, ∃ t, a.form f = .ok t) :
    ((∀ a ∈ es, ∃ t, a.key = .ok t) → printedSet f (es.map member) = .error .absentText) ∧
    ((¬ ∀ a ∈ es, ∃ t, a.key = .ok t) → printedSet f (es.map member) = .error .tooManyDigits) := by
  rw [printedSet, sortTexts_map, printedAll_map]
  refine ⟨fun hkeys => ?_, fun hkeys => ?_⟩
  · have hforms : es.mapM (form f) = .error .absentText :=
      mapM_error (fun a ha _ he => (hkeys a ha).elim fun _ ht => form_error (hs a ha) ht he) h
    rw [mapM_ok hkeys, hforms]
    rfl
  · rw [mapM_error (fun a ha _ he => key_error (hs a ha) he) hkeys]
    rfl

theorem forms_of_printedSet {text : String}
    (h : printedSet f (es.map member) = .ok text) : ∀ a ∈ es, ∃ t, a.form f = .ok t := by
  by_contra hforms
  obtain ⟨habsent, hdigits⟩ := printedSet_error hs hforms
  by_cases hkeys : ∀ a ∈ es, ∃ t, a.key = .ok t
  · cases (habsent hkeys).symm.trans h
  · cases (hdigits hkeys).symm.trans h

/-- The order in which the members are stored does not matter. -/
theorem printedSet_eq_of_perm {es' : List Element} (hp : es.Perm es') :
    printedSet f (es.map member) = printedSet f (es'.map member) := by
  have hs' : ∀ a ∈ es', a.IsAtom := fun a ha => hs a (hp.mem_iff.2 ha)
  have hall (P : Element → Prop) : (∀ a ∈ es, P a) ↔ ∀ a ∈ es', P a := by simp only [hp.mem_iff]
  by_cases h : ∀ a ∈ es, ∃ t, a.form f = .ok t
  · rw [printedSet_ok hs h, printedSet_ok hs' ((hall _).1 h), sorted, sorted,
      mergeSort_eq_of_perm hp fun a ha b hb hk => ?_]
    obtain ⟨t, ht⟩ := (h a ha).elim fun _ ht => key_of_form (hs a ha) ht
    obtain ⟨u, hu⟩ := (h b hb).elim fun _ hu => key_of_form (hs b hb) hu
    rw [ht, hu] at hk
    exact key_injective (hs a ha) (hs b hb) ht (hu.trans (congrArg _ hk.symm))
  · obtain ⟨habsent, hdigits⟩ := printedSet_error hs h
    obtain ⟨habsent', hdigits'⟩ := printedSet_error hs' fun h' => h ((hall _).2 h')
    by_cases hkeys : ∀ a ∈ es, ∃ t, a.key = .ok t
    · rw [habsent hkeys, habsent' ((hall _).1 hkeys)]
    · rw [hdigits hkeys, hdigits' fun h' => hkeys ((hall _).2 h')]

end Element

/-- A value is the set of a list of elements, whose members may be stored in any order. -/
def StoresSet (s : Store) (x : Ref) (as : List Element) : Prop :=
  ∃ ms, (s.cell x).payload = .set ms ∧ ms.Perm (Members.ofList (members as))

variable {s : Store} {x : Ref} {as : List Element}

theorem StoresSet.exists_elements (h : StoresSet s x as) (has : ∀ a ∈ as, a.IsAtom) :
    ∃ es : List Element, (s.cell x).payload = .set (es.map member) ∧ es.Nodup ∧ ∀ a, a ∈ es ↔ a ∈ as := by
  obtain ⟨ms, hx, hp⟩ := h
  obtain ⟨es, rfl, hnodup, hclasses⟩ := (represents_ofList as).perm hp
  refine ⟨es, hx, hnodup.of_map, fun a => ⟨fun ha => ?_, fun ha => ?_⟩⟩
  · have hmem : a.cls ∈ classes as := hclasses ▸ mem_map_of_mem ha
    obtain ⟨b, hb, hba⟩ := mem_classes_iff.1 hmem
    rwa [(has b hb).eq_of_equal hba]
  · have hmem : a.cls ∈ {c | c ∈ es.map cls} := hclasses ▸ mem_map_of_mem ha
    obtain ⟨b, hb, hba⟩ := mem_map.1 hmem
    rwa [← (has a ha).eq_of_equal (cls_eq_iff.1 hba).symm]

theorem printed_set {ms : Members} (h : (s.cell x).payload = .set ms) (f : Form) :
    s.printed f x = some (printedSet f ms) := by
  rw [Store.printed_eq, Store.printedWith, h]
  rfl

/-- The set of a list of integers and text values is printed in the same way, in both forms, as that of any list with
the same elements, in whatever order its members are stored. In the text each element is written once, between braces
and with commas, and there is a text if all of them can be written. -/
theorem set_printing_canonical {s' : Store} {y : Ref} {bs : List Element} (has : ∀ a ∈ as, a.IsAtom)
    (hsame : ∀ a, a ∈ as ↔ a ∈ bs) :
    (∀ {v l rs}, (v.cell l).payload = .list rs.toArray →
      Forall₂ (fun r a => (v.cell r).payload = a.payload) rs as →
      Performs v (.call .setFromList) [l] fun z => ∃ r u, z = .ok r u ∧ StoresSet u.store r as) ∧
    (StoresSet s x as → ∀ f : Form,
      (StoresSet s' y bs → s.printed f x = s'.printed f y) ∧
      (∀ {text}, s.printed f x = some (.ok text) → ∃ (es : List Element) (texts : List String), es.Nodup ∧
        (∀ a, a ∈ es ↔ a ∈ as) ∧ Forall₂ (Written f) es texts ∧
        text = if texts = [] then "\x7b: :\x7d" else "\x7b: " ++ ", ".intercalate texts ++ " :\x7d") ∧
      ((∃ text, s.printed f x = some (.ok text)) ↔ ∀ a ∈ as, ∃ t, Written f a t)) := by
  refine ⟨fun hl hrs => ⟨fun ha => ?_⟩, fun hx f => ?_⟩
  · obtain ⟨r, u, hu, -, hp, -⟩ := (performs_setFromList hl hrs).of ha
    exact ⟨r, u, hu, _, hp, .refl _⟩
  obtain ⟨es, hes, hnodup, hmem⟩ := hx.exists_elements has
  have hatoms : ∀ a ∈ es, a.IsAtom := fun a ha => has a ((hmem a).1 ha)
  have hall (P : Element → Prop) : (∀ a ∈ es, P a) ↔ ∀ a ∈ as, P a := by simp only [hmem]
  rw [printed_set hes]
  refine ⟨fun hy => ?_, fun {text} ht => ?_, ?_⟩
  · obtain ⟨es', hes', hnodup', hmem'⟩ := hy.exists_elements fun b hb => has b ((hsame b).2 hb)
    have hperm : es.Perm es' := (perm_ext_iff_of_nodup hnodup hnodup').2 fun a => by rw [hmem, hmem', hsame]
    rw [printed_set hes', printedSet_eq_of_perm hatoms hperm]
  · have hforms := forms_of_printedSet hatoms (Option.some.inj ht)
    have hperm : (sorted es).Perm es := mergeSort_perm ..
    rw [printedSet_ok hatoms hforms] at ht
    cases ht
    refine ⟨sorted es, (sorted es).map fun a => textOf (a.form f), hperm.nodup_iff.2 hnodup,
      fun a => hperm.mem_iff.trans (hmem a), ?_, ?_⟩
    · rw [List.forall₂_map_right_iff, List.forall₂_same]
      intro a ha
      obtain ⟨t, ht⟩ := hforms a (hperm.mem_iff.1 ha)
      rw [ht]
      exact (form_iff_written (hatoms a (hperm.mem_iff.1 ha))).1 ht
    · simp only [bracketed, List.isEmpty_iff]
  · have hwritten : (∀ a ∈ as, ∃ t, Written f a t) ↔ ∀ a ∈ es, ∃ t, a.form f = .ok t := by
      rw [← hall]
      exact forall₂_congr fun a ha => exists_congr fun t => (form_iff_written (hatoms a ha)).symm
    rw [hwritten]
    constructor
    · rintro ⟨text, ht⟩
      exact forms_of_printedSet hatoms (Option.some.inj ht)
    · intro hforms
      exact ⟨_, congrArg some (printedSet_ok hatoms hforms)⟩

namespace SetPrinting

/-- The number one and the text `a` in two sets, stored in different orders. -/
def world : World :=
  .small [.fresh (.set [.number (.int 1), .string (.text "a")]),
    .fresh (.set [.string (.text "a"), .number (.int 1)])] []

def elements : List Element := [.int 1, .string (some "a")]

def repeated : List Element := [.string (some "a"), .int 1, .int 1]

/-- Both sets have the same forms. -/
theorem set_printing_canonical_orders : (∀ a ∈ elements, a.IsAtom) ∧ (∀ a, a ∈ elements ↔ a ∈ repeated) ∧
    StoresSet world.store 0 elements ∧ StoresSet world.store 1 repeated ∧
    ∀ f, world.store.printed f 0 = world.store.printed f 1 := by
  have hatoms : ∀ a ∈ elements, a.IsAtom := by simp [elements, Element.IsAtom]
  have hsame : ∀ a, a ∈ elements ↔ a ∈ repeated := by
    intro a
    simp only [elements, repeated, mem_cons, not_mem_nil, or_false, or_self]
    exact or_comm
  have hx : StoresSet world.store 0 elements := ⟨_, rfl, .refl _⟩
  have hy : StoresSet world.store 1 repeated := ⟨_, rfl, .refl _⟩
  refine ⟨hatoms, hsame, hx, hy, fun f => ?_⟩
  exact ((set_printing_canonical hatoms hsame).2 hx f).1 hy

end SetPrinting

end Utterance

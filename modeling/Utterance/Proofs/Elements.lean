import Utterance.Proofs.SetMembers
import Utterance.Value.Printing

/-!
# Elements of sets

An element is an integer, a text value, or a set of elements (`Element`). Two elements are equal if they are the same
integer, the same text, or sets with equal members (`Element.Equal`), which says nothing about how sets are stored.
What a set stores of an element is its form as a member (`Element.member`), and forms are equal exactly if the
elements are (`Element.equal_member_iff`): lists of forms without repetitions are as many as the elements that they
stand for, so a set of them is within another one of the same size only if both are the same. A form also gives the
value of its element back (`Element.value_member`).
-/

namespace Utterance

open List

variable {a : Element} {as : List Element} {m : Member} {r : Ref} {s : Option String}

/-- An integer, a text value (which may hold nothing), or a set of elements, in whatever order and however often each
is named. -/
inductive Element where
  | int (n : Int)
  | string (s : Option String)
  | set (elements : List Element)

namespace Element

@[elab_as_elim]
theorem induction {motive : Element → Prop} (int : ∀ n, motive (.int n)) (string : ∀ s, motive (.string s))
    (set : ∀ as, (∀ a ∈ as, motive a) → motive (.set as)) : ∀ a, motive a
  | .int n => int n
  | .string s => string s
  | .set as => set as fun a _ => induction int string set a

/-- Equal integers, equal texts, or sets with equal members. -/
def Equal : Element → Element → Prop
  | .int n, .int m => n = m
  | .string s, .string t => s = t
  | .set as, .set bs => (∀ a ∈ as, ∃ b ∈ bs, Equal a b) ∧ ∀ b ∈ bs, ∃ a, ∃ _ : a ∈ as, Equal a b
  | _, _ => False
termination_by a => a

namespace Equal

variable {b c : Element}

theorem int_iff {n : Int} : Equal (.int n) b ↔ b = .int n := by
  cases b <;> simp [Equal, eq_comm]

theorem string_iff : Equal (.string s) b ↔ b = .string s := by
  cases b <;> simp [Equal, eq_comm]

theorem set_iff : Equal (.set as) b ↔
    ∃ bs, b = .set bs ∧ (∀ a ∈ as, ∃ b ∈ bs, Equal a b) ∧ ∀ b ∈ bs, ∃ a ∈ as, Equal a b := by
  cases b <;> simp [Equal]

protected theorem refl (a : Element) : Equal a a := by
  induction a using Element.induction with
  | int n => exact int_iff.2 rfl
  | string s => exact string_iff.2 rfl
  | set as ih => exact set_iff.2 ⟨as, rfl, fun a ha => ⟨a, ha, ih a ha⟩, fun a ha => ⟨a, ha, ih a ha⟩⟩

protected theorem symm (h : Equal a b) : Equal b a := by
  induction a using Element.induction generalizing b with
  | int n =>
    obtain rfl := int_iff.1 h
    exact h
  | string s =>
    obtain rfl := string_iff.1 h
    exact h
  | set as ih =>
    obtain ⟨bs, rfl, hab, hba⟩ := set_iff.1 h
    refine set_iff.2 ⟨as, rfl, fun b hb => ?_, fun a ha => ?_⟩
    · obtain ⟨a, ha, h⟩ := hba b hb
      exact ⟨a, ha, ih a ha h⟩
    · obtain ⟨b, hb, h⟩ := hab a ha
      exact ⟨b, hb, ih a ha h⟩

protected theorem trans (h : Equal a b) (h' : Equal b c) : Equal a c := by
  induction a using Element.induction generalizing b c with
  | int n =>
    obtain rfl := int_iff.1 h
    exact h'
  | string s =>
    obtain rfl := string_iff.1 h
    exact h'
  | set as ih =>
    obtain ⟨bs, rfl, hab, hba⟩ := set_iff.1 h
    obtain ⟨cs, rfl, hbc, hcb⟩ := set_iff.1 h'
    refine set_iff.2 ⟨cs, rfl, fun a ha => ?_, fun c hc => ?_⟩
    · obtain ⟨b, hb, h⟩ := hab a ha
      obtain ⟨c, hc, h'⟩ := hbc b hb
      exact ⟨c, hc, ih a ha h h'⟩
    · obtain ⟨b, hb, h'⟩ := hcb c hc
      obtain ⟨a, ha, h⟩ := hba b hb
      exact ⟨a, ha, ih a ha h h'⟩

end Equal

instance setoid : Setoid Element := ⟨Equal, Equal.refl, Equal.symm, Equal.trans⟩

end Element

abbrev Class := Quotient Element.setoid

namespace Element

def cls (a : Element) : Class := ⟦a⟧

def classes (as : List Element) : Set Class := {c | c ∈ as.map cls}

theorem cls_eq_iff {b : Element} : a.cls = b.cls ↔ a.Equal b := Quotient.eq

theorem mem_classes_iff : a.cls ∈ classes as ↔ ∃ b ∈ as, b.Equal a := by
  rw [classes, Set.mem_ofPred_eq, mem_map]
  exact exists_congr fun b => and_congr_right fun _ => cls_eq_iff

theorem equal_set_iff {bs : List Element} : Equal (.set as) (.set bs) ↔ classes as = classes bs := by
  rw [Equal.set_iff]
  constructor
  · rintro ⟨_, heq, hab, hba⟩
    cases heq
    refine Set.Subset.antisymm ?_ ?_ <;> intro c hc <;> obtain ⟨x, hx, rfl⟩ := mem_map.1 hc
    · obtain ⟨b, hb, h⟩ := hab x hx
      exact mem_map.2 ⟨b, hb, (cls_eq_iff.2 h).symm⟩
    · obtain ⟨a, ha, h⟩ := hba x hx
      exact mem_map.2 ⟨a, ha, cls_eq_iff.2 h⟩
  · intro h
    refine ⟨bs, rfl, fun a ha => ?_, fun b hb => ?_⟩
    · have hmem : a.cls ∈ classes bs := h ▸ mem_map_of_mem ha
      obtain ⟨b, hb, hba⟩ := mem_classes_iff.1 hmem
      exact ⟨b, hb, hba.symm⟩
    · have hmem : b.cls ∈ classes as := h ▸ mem_map_of_mem hb
      exact mem_classes_iff.1 hmem

def ofText : Option String → Scalar
  | some s => .text s
  | none => .absent

mutual

def member : Element → Member
  | int n => .number (.int n)
  | string s => .string (ofText s)
  | set as => .set (Members.ofList (members as))

def members : List Element → List Member
  | [] => []
  | a :: as => member a :: members as

end

theorem members_eq_map (as : List Element) : members as = as.map member := by
  induction as with
  | nil => rw [members, map_nil]
  | cons a as ih => rw [members, map_cons, ih]

theorem same_int_iff {n m : Int} : (Scalar.int n).same (.int m) = true ↔ n = m := by
  simp [Scalar.same, Scalar.equal, Scalar.isNaN]

theorem same_ofText_iff {t : Option String} : (ofText s).same (ofText t) = true ↔ s = t := by
  cases s <;> cases t <;> simp [ofText, Scalar.same, Scalar.equal, Scalar.isNaN]

/-- For elements up to a size, those in a set being smaller. -/
theorem equal_member_iff_of_lt (n : Nat) : ∀ a b : Element, sizeOf a < n → sizeOf b < n →
    (a.member.equal b.member = true ↔ a.Equal b) := by
  induction n with
  | zero => exact fun _ _ h => absurd h (Nat.not_lt_zero _)
  | succ n ih =>
    intro a b ha hb
    cases a with
    | int i =>
      rw [Equal.int_iff]
      cases b with
      | int j => rw [member, member, Member.equal, same_int_iff, Element.int.injEq, eq_comm]
      | _ => simp [member, Member.equal]
    | string s =>
      rw [Equal.string_iff]
      cases b with
      | string t => rw [member, member, Member.equal, same_ofText_iff, Element.string.injEq, eq_comm]
      | _ => simp [member, Member.equal]
    | set as =>
      cases b with
      | set bs =>
        have smaller {cs : List Element} (hcs : sizeOf (Element.set cs) < n + 1) : ∀ c ∈ cs, sizeOf c < n := by
          intro c hc
          have := sizeOf_lt_of_mem hc
          simp only [Element.set.sizeOf_spec] at hcs
          omega
        lift as to List {a : Element // sizeOf a < n} using smaller ha
        lift bs to List {b : Element // sizeOf b < n} using smaller hb
        have hforms (x y : {a : Element // sizeOf a < n}) : x.1.member.equal y.1.member = true ↔ x.1.cls = y.1.cls :=
          (ih x y x.2 y.2).trans cls_eq_iff.symm
        have hs := Members.Represents.ofList hforms as
        have ht := Members.Represents.ofList hforms bs
        have hsets := hs.equal_iff hforms ht
        rw [Members.equal] at hsets
        rw [equal_set_iff, member, member, members_eq_map, members_eq_map, classes, classes, Member.equal]
        simpa only [map_map, Function.comp_def] using hsets
      | _ =>
        rw [Equal.set_iff]
        simp [member, Member.equal]

theorem equal_member_iff {b : Element} : a.member.equal b.member = true ↔ a.Equal b :=
  equal_member_iff_of_lt (max (sizeOf a) (sizeOf b) + 1) a b (by omega) (by omega)

theorem equal_member_iff_cls (a b : Element) : a.member.equal b.member = true ↔ a.cls = b.cls :=
  equal_member_iff.trans cls_eq_iff.symm

abbrev Represents : Members → Set Class → Prop := Members.Represents member cls

theorem represents_ofList (as : List Element) : Represents (Members.ofList (members as)) (classes as) := by
  rw [members_eq_map]
  exact Members.Represents.ofList equal_member_iff_cls as

/-- Whatever stands for a set is what is stored of a list of elements. -/
theorem Represents.exists_elements {ms : Members} {S : Set Class} (h : Represents ms S) :
    ∃ as, Members.ofList (members as) = ms ∧ classes as = S := by
  have hself := Members.Represents.ofList_self equal_member_iff_cls h
  obtain ⟨as, rfl, -, hclasses⟩ := h
  exact ⟨as, by rw [members_eq_map, hself], hclasses⟩

def payload : Element → Payload
  | int n => .number (.int n)
  | string s => .string (ofText s)
  | set as => .set (Members.ofList (members as))

end Element

/-- The contents of the value that a member stands for. -/
def Member.value : Member → Payload
  | number s => .number s
  | string s => .string s
  | set ms => .set (Members.ofList (restoredAll ms))
  | other s => .string (.text s)

theorem Store.member_of_value {s : Store} (h : (s.cell r).payload = m.value) : s.member r = pure m.restored := by
  unfold Store.member
  rw [h]
  cases m <;> simp [Member.value, Member.restored]

theorem Members.mem_of_mem_ofList {ms : List Member} (h : m ∈ Members.ofList ms) : m ∈ ms := by
  suffices ∀ ns : Members, m ∈ ms.foldl Members.insert ns → m ∈ ns ∨ m ∈ ms from (this [] h).resolve_left
    not_mem_nil
  clear h
  induction ms with
  | nil => exact fun ns h => .inl h
  | cons n ms ih =>
    intro ns h
    rcases ih _ h with h | h
    · unfold Members.insert at h
      split at h
      · exact .inl h
      · rcases mem_append.1 h with h | h
        · exact .inl h
        · exact .inr (mem_singleton.1 h ▸ mem_cons_self)
    · exact .inr (mem_cons_of_mem _ h)

theorem Member.restoredAll_eq_map (ms : List Member) : restoredAll ms = ms.map restored := by
  induction ms with
  | nil => rw [restoredAll, map_nil]
  | cons m ms ih => rw [restoredAll, map_cons, ih]

namespace Element

theorem ofList_restoredAll (h : ∀ a ∈ as, a.member.restored = a.member) :
    Members.ofList (Member.restoredAll (Members.ofList (members as))) = Members.ofList (members as) := by
  have hsame : Member.restoredAll (Members.ofList (members as)) = Members.ofList (members as) := by
    rw [Member.restoredAll_eq_map]
    conv_rhs => rw [← map_id (Members.ofList (members as))]
    refine map_congr_left fun m hm => ?_
    have hmem := Members.mem_of_mem_ofList hm
    rw [members_eq_map] at hmem
    obtain ⟨a, ha, rfl⟩ := mem_map.1 hmem
    exact h a ha
  rw [hsame]
  exact Members.Represents.ofList_self equal_member_iff_cls (represents_ofList as)

theorem restored_member (a : Element) : a.member.restored = a.member := by
  induction a using Element.induction with
  | int | string => rw [member, Member.restored]
  | set as ih => rw [member, Member.restored, ofList_restoredAll ih]

theorem value_member (a : Element) : a.member.value = a.payload := by
  cases a with
  | int | string => rw [member, payload, Member.value]
  | set as => rw [member, payload, Member.value, ofList_restoredAll fun a _ => restored_member a]

theorem member_of_payload {s : Store} (h : (s.cell r).payload = a.payload) : s.member r = pure a.member := by
  rw [← value_member] at h
  rw [Store.member_of_value h, restored_member]

end Element

end Utterance

import Utterance.Proofs.Bindings

/-!
# What scopes bind and share

Binding names one after the other gives each name the last of its values (`Scope.get?_setAll`). A scope whose names
are distinct and bound shares each name with one value (`Scope.lookup_exported`). Such is every scope that a program
makes, and what it shares expressly is what the log says was shared in it: `Reaches.tracked` proves this of everything
that evaluation can do.
-/

namespace Utterance

variable {e : Event} {n : Nat}

namespace Scope

open List

variable {β : Type} {s : Scope β}

theorem lookup_entry {γ : Type} (e : String × γ) (l : List (String × γ)) (x : String) :
    (e :: l).lookup x = if x = e.1 then some e.2 else l.lookup x := by
  rw [lookup_cons]
  by_cases h : x = e.1
  · simp [h]
  · rw [if_neg h, beq_eq_false_iff_ne.2 h]

theorem lookup_bindIn (name x : String) (v : Option β) (l : List (String × Option β)) :
    (bindIn name v l).lookup x = if x = name then some v else l.lookup x := by
  induction l with
  | nil => exact lookup_entry _ _ _
  | cons e l ih =>
    obtain ⟨n, u⟩ := e
    unfold bindIn
    by_cases hn : n = name
    · subst hn
      rw [if_pos rfl, lookup_entry, lookup_entry]
      by_cases h : x = n
      · rw [if_pos h, if_pos h]
      · rw [if_neg h, if_neg h, if_neg h]
    · rw [if_neg hn, lookup_entry, lookup_entry, ih]
      by_cases h : x = n
      · rw [if_pos h, if_pos h, if_neg (h ▸ hn)]
      · rw [if_neg h, if_neg h]

theorem get?_set (s : Scope β) (name x : String) (v : Option β) :
    (s.set name v).get? x = if x = name then v else s.get? x := by
  show ((bindIn name v s.bindings).lookup x).join = _
  rw [lookup_bindIn]
  split <;> rfl

def setAll (s : Scope β) (entries : List (String × β)) : Scope β := entries.foldl (fun s e => s.set e.1 (some e.2)) s

theorem setAll_exports (s : Scope β) (entries : List (String × β)) : (s.setAll entries).exports = s.exports := by
  induction entries generalizing s with
  | nil => rfl
  | cons e entries ih => exact ih _

/-- The last of the values that a name is bound to stays. -/
theorem get?_setAll (s : Scope β) (entries : List (String × β)) (x : String) :
    (s.setAll entries).get? x = (entries.reverse.lookup x).or (s.get? x) := by
  induction entries generalizing s with
  | nil => rfl
  | cons e entries ih =>
    show ((s.set e.1 (some e.2)).setAll entries).get? x = _
    rw [ih, get?_set, reverse_cons, lookup_append, lookup_entry, Option.or_assoc]
    by_cases h : x = e.1
    · rw [if_pos h, if_pos h, Option.some_or]
    · rw [if_neg h, if_neg h, lookup_nil, Option.none_or]

/-- Distinct names, all bound to something. -/
structure Tidy (s : Scope β) : Prop where
  nodup : (s.bindings.map Prod.fst).Nodup
  bound : ∀ e ∈ s.bindings, e.2.isSome = true

variable {l : List (String × Option β)} {v : Option β} {x : String}

theorem mem_bindIn {name : String} {e : String × Option β} (h : e ∈ bindIn name v l) : e = (name, v) ∨ e ∈ l := by
  induction l with
  | nil => exact .inl (mem_singleton.1 h)
  | cons d l ih =>
    obtain ⟨n, u⟩ := d
    unfold bindIn at h
    split at h
    · next hn =>
      subst hn
      exact (mem_cons.1 h).imp_right (mem_cons_of_mem _)
    · rcases mem_cons.1 h with h | h
      · exact .inr (h ▸ mem_cons_self)
      · exact (ih h).imp_right (mem_cons_of_mem _)

theorem Tidy.empty : (empty : Scope β).Tidy := ⟨.nil, fun _ h => nomatch h⟩

theorem nodup_bindIn (h : (l.map Prod.fst).Nodup) (name : String) (v : Option β) :
    ((bindIn name v l).map Prod.fst).Nodup := by
  induction l with
  | nil => exact nodup_cons.2 ⟨not_mem_nil, .nil⟩
  | cons d l ih =>
    obtain ⟨n, u⟩ := d
    rw [map_cons, nodup_cons] at h
    unfold bindIn
    split
    · exact nodup_cons.2 h
    · next hne =>
      refine nodup_cons.2 ⟨fun hm => ?_, ih h.2⟩
      obtain ⟨e, he, heq⟩ := mem_map.1 hm
      rcases mem_bindIn he with rfl | he
      · exact hne heq.symm
      · exact h.1 (mem_map.2 ⟨e, he, heq⟩)

theorem Tidy.set (h : s.Tidy) (name : String) (b : β) : (s.set name (some b)).Tidy := by
  refine ⟨nodup_bindIn h.nodup name _, fun e he => ?_⟩
  rcases mem_bindIn he with rfl | he
  · rfl
  · exact h.bound e he

theorem lookup_of_nodup (h : (l.map Prod.fst).Nodup) (he : (x, v) ∈ l) : l.lookup x = some v := by
  induction l with
  | nil => cases he
  | cons d l ih =>
    rw [map_cons, nodup_cons] at h
    rw [lookup_entry]
    rcases mem_cons.1 he with heq | he
    · rw [← heq, if_pos rfl]
    · rw [if_neg fun heq => h.1 (mem_map.2 ⟨_, he, heq⟩)]
      exact ih h.2 he

/-- What a name that a scope shares is bound to. Names that are shared expressly may also be bound further out. -/
def offer? (s : Scope β) (outer : List (Scope β)) (x : String) : Option β :=
  if s.isExported x then (if s.exports.isSome then lookup x (s :: outer) else s.get? x) else none

theorem mem_of_lookup {γ : Type} {l : List (String × γ)} {v : γ} (h : l.lookup x = some v) : (x, v) ∈ l := by
  obtain ⟨l₁, l₂, rfl, -⟩ := lookup_eq_some_iff.1 h
  simp

theorem Tidy.mem_exported (h : s.Tidy) {outer : List (Scope β)} : (x, v)
    ∈ s.exported outer ↔ ∃ b, v = some b ∧ s.offer? outer x = some b := by
  unfold exported offer?
  split
  · next hs =>
    rw [mem_filter, hs]
    refine ⟨fun ⟨he, hx⟩ => ?_, fun ⟨b, hv, hx⟩ => ?_⟩
    · obtain ⟨b, hb⟩ := Option.isSome_iff_exists.1 (h.bound _ he)
      refine ⟨b, hb, ?_⟩
      rw [if_pos hx, if_neg (by simp), get?, lookup_of_nodup h.nodup he]
      exact hb
    · split at hx
      · next hx' =>
        rw [if_neg (by simp)] at hx
        exact ⟨mem_of_lookup (hv ▸ Option.join_eq_some_iff.1 hx), hx'⟩
      · cases hx
  · next names hs =>
    have hexported : s.isExported x = names.contains x := by rw [isExported, hs]
    rw [mem_filterMap, hexported, hs, Option.isSome_some, if_pos rfl]
    refine ⟨fun ⟨n, hn, he⟩ => ?_, fun ⟨b, hv, hx⟩ => ?_⟩
    · obtain ⟨b, hb, heq⟩ := Option.map_eq_some_iff.1 he
      cases heq
      exact ⟨b, rfl, by rw [if_pos (contains_iff_mem.2 hn), hb]⟩
    · split at hx
      · next hx' => exact ⟨x, contains_iff_mem.1 hx', by rw [hx, hv]; rfl⟩
      · cases hx

theorem Tidy.lookup_exported (h : s.Tidy) (outer : List (Scope β)) (x : String) :
    (s.exported outer).lookup x = (s.offer? outer x).map some := by
  cases hl : (s.exported outer).lookup x with
  | some v =>
    obtain ⟨b, rfl, hb⟩ := h.mem_exported.1 (mem_of_lookup hl)
    rw [hb]
    rfl
  | none =>
    cases hb : s.offer? outer x with
    | none => rfl
    | some b =>
      have hmem := h.mem_exported.2 ⟨b, rfl, hb⟩
      exact absurd (lookup_eq_none_iff.1 hl _ hmem) (by simp)

/-- The names that a scope shares, with their values, where they have one. -/
def offers (exported : List (String × Option β)) : List (String × β) := exported.filterMap fun e => e.2.map (e.1, ·)

theorem Tidy.lookup_offers (h : s.Tidy) (outer : List (Scope β)) (x : String) :
    (offers (s.exported outer)).reverse.lookup x = s.offer? outer x := by
  have hmem {b : β} : (x, b) ∈ (offers (s.exported outer)).reverse ↔ s.offer? outer x = some b := by
    rw [mem_reverse, offers, mem_filterMap]
    refine ⟨fun ⟨e, he, heq⟩ => ?_, fun hb => ⟨_, h.mem_exported.2 ⟨b, rfl, hb⟩, rfl⟩⟩
    obtain ⟨c, hc, heq⟩ := Option.map_eq_some_iff.1 heq
    cases heq
    obtain ⟨b, hb, hoffer⟩ := h.mem_exported.1 he
    rw [hoffer, ← hb, hc]
  cases hl : (offers (s.exported outer)).reverse.lookup x with
  | some b => exact (hmem.1 (mem_of_lookup hl)).symm
  | none =>
    cases hb : s.offer? outer x with
    | none => rfl
    | some b => exact absurd (lookup_eq_none_iff.1 hl _ (hmem.2 hb)) (by simp)

theorem mem_addExport (s : Scope β) (name x : String) :
    x ∈ (s.addExport name).exports.getD [] ↔ x = name ∨ x ∈ s.exports.getD [] := by
  show x ∈ (if (s.exports.getD []).contains name then _ else _) ↔ _
  split
  · next hname => exact ⟨.inr, fun h => h.elim (fun hx => hx ▸ contains_iff_mem.1 hname) id⟩
  · rw [mem_append, mem_singleton, or_comm]

end Scope

/-- Whether names of a scope are shared, by a statement that stands in it. -/
def Event.isSharingIn (n : Nat) : Event → Bool
  | .sharing m => m == n
  | .shared m _ => m == n
  | _ => false

/-- Whether a name was put among those that a scope shares. -/
def Event.shares (n : Nat) (x : String) : Event → Bool
  | .shared m y => m == n && y == x
  | _ => false

theorem Event.isSharingIn_of_not_isSharing (h : e.isSharing = false) (n : Nat) : e.isSharingIn n = false := by
  cases e with
  | sharing | shared => cases h
  | _ => rfl

theorem Event.shares_of_not_isSharingIn (h : e.isSharingIn n = false) {x : String} : e.shares n x = false := by
  cases e with
  | shared m y => rw [shares, show (m == n) = false from h, Bool.false_and]
  | _ => rfl

/-- A scope with distinct names that shares what was shared in it since it was made. -/
structure Tracked (n : Nat) (happened : List Event) (s : Scope Binding) : Prop where
  tidy : s.Tidy
  sharing : s.exports.isSome = happened.any (·.isSharingIn n)
  shared : ∀ x, x ∈ s.exports.getD [] ↔ happened.any (·.shares n x) = true

namespace Tracked

variable {happened : List Event} {s : Scope Binding}

theorem empty (n : Nat) : Tracked n [] .empty := ⟨.empty, rfl, fun x => by simp [Scope.empty]⟩

variable (h : Tracked n happened s)
include h

theorem set (name : String) (b : Binding) : Tracked n happened (s.set name (some b)) :=
  ⟨h.tidy.set name b, h.sharing, h.shared⟩

theorem note (he : e.isSharingIn n = false) : Tracked n (e :: happened) s := by
  refine ⟨h.tidy, ?_, fun x => ?_⟩
  · rw [h.sharing, List.any_cons, he, Bool.false_or]
  · rw [h.shared x, List.any_cons, Event.shares_of_not_isSharingIn he, Bool.false_or]

theorem beginSharing : Tracked n (.sharing n :: happened) s.beginSharing := by
  refine ⟨⟨h.tidy.nodup, h.tidy.bound⟩, ?_, fun x => ?_⟩
  · simp [Scope.beginSharing, Event.isSharingIn]
  · rw [List.any_cons, show Event.shares n x (.sharing n) = false from rfl, Bool.false_or]
    exact h.shared x

theorem addExport (name : String) : Tracked n (.shared n name :: happened) (s.addExport name) := by
  refine ⟨⟨h.tidy.nodup, h.tidy.bound⟩, ?_, fun x => ?_⟩
  · simp [Scope.addExport, Event.isSharingIn]
  · rw [Scope.mem_addExport, h.shared x, List.any_cons, Bool.or_eq_true]
    refine or_congr_left ?_
    simp only [Event.shares, beq_self_eq_true, Bool.true_and, beq_iff_eq]
    exact eq_comm

end Tracked

theorem World.scope_modifyScope_self (w : World) (f : Scope Binding → Scope Binding)
    (h : n < w.scopeCount) : (w.modifyScope n f).scope n = f (w.scope n) := by
  unfold modifyScope World.scope Store.scope
  rw [Array.getD_eq_getD_getElem?, Array.getD_eq_getD_getElem?, Array.getElem?_modify, if_pos rfl,
    Array.getElem?_eq_getElem h]
  rfl

/-- Whatever evaluation does, a scope shares expressly what the log says. -/
theorem Reaches.tracked {frame : Frame} {w w' : World} (h : Reaches frame w w')
    (hn : n < w.scopeCount) {happened : List Event} (hs : Tracked n happened (w.scope n)) :
    ∃ later, w'.log = later ++ w.log ∧ Tracked n (later ++ happened) (w'.scope n) := by
  have called {b : Option Builtin} {frame inner : Frame} {args : List Ref} {w v : World}
      (he : Enters frame b inner args w v) {happened : List Event} (hn : n < w.scopeCount)
      (hs : Tracked n happened (w.scope n)) :
      Tracked n ([.called b inner args] ++ happened) (v.scope n) := by
    rw [he.scope hn]
    exact hs.note rfl
  have changed {w : World} {m : Nat} {f : Scope Binding → Scope Binding} {noted : List Event}
      (hn : n < w.scopeCount) (hown : m = n → Tracked n noted (f (w.scope n)))
      (hother : m ≠ n → Tracked n noted (w.scope n)) :
      Tracked n noted ((w.modifyScope m f).scope n) := by
    by_cases hm : m = n
    · subst hm
      rw [World.scope_modifyScope_self w _ hn]
      exact hown rfl
    · rw [World.scope_modifyScope_of_ne w _ (Ne.symm hm)]
      exact hother hm
  induction h generalizing happened with
  | refl | alloc | place | reframe | newTable | stream | loader => exact ⟨[], rfl, hs⟩
  | trans h _ ih ih' =>
    obtain ⟨first, hl, hv⟩ := ih hn hs
    obtain ⟨later, hl', hu⟩ := ih' (Nat.lt_of_lt_of_le hn h.grows.scopes) hv
    exact ⟨later ++ first, by rw [hl', hl, List.append_assoc], by rwa [List.append_assoc]⟩
  | bind w name b _ => exact ⟨[], rfl, changed hn (fun _ => hs.set name b) fun _ => hs⟩
  | @sharing frame m outer w _ =>
    refine ⟨[.sharing m], rfl, changed hn ?_ fun hm => hs.note (beq_eq_false_iff_ne.2 hm)⟩
    rintro rfl
    exact hs.beginSharing
  | @shared frame m outer w name _ =>
    refine ⟨[.shared m name], rfl, changed hn ?_ fun hm => hs.note (beq_eq_false_iff_ne.2 hm)⟩
    rintro rfl
    exact hs.addExport name
  | noted frame w e _ he => exact ⟨[e], rfl, hs.note (Event.isSharingIn_of_not_isSharing he n)⟩
  | @scope frame inner w v _ _ ih =>
    exact ih (by rw [World.scopeCount_newScope]; omega) (by rwa [World.scope_newScope w hn])
  | call he _ ih | run _ he _ ih =>
    obtain ⟨later, hl, hu⟩ := ih (Nat.lt_of_lt_of_le hn he.grows.scopes) (called he hn hs)
    exact ⟨later ++ [.called _ _ _], by rw [hl, he.log, List.append_assoc], by rwa [List.append_assoc]⟩
  | elements f _ he | erase key he _ => exact ⟨[.called _ _ _], he.log, called he hn hs⟩

end Utterance

import Utterance.Proofs.Scopes
import Utterance.Session

/-!
# Bringing names in and sharing names

Names are brought in and shared one after the other. A module that cannot be loaded is found out before anything is
bound. An item that the module does not share, or a name that cannot be shared because it means nothing, is found out
when its turn comes, and what was bound or shared before it stays (`failed_bring_and_share`).
-/

namespace Utterance

open Eval Store List World Scope

variable {done rest : List Item} {item : Item}

namespace World

theorem modifyScope_modifyScope (w : World) (n : Nat) (f g : Scope Binding → Scope Binding) :
    (w.modifyScope n f).modifyScope n g = w.modifyScope n fun s => g (f s) := by
  have h : (w.store.scopes.modify n f).modify n g = w.store.scopes.modify n fun s => g (f s) := by
    apply Array.ext_getElem?
    intro i
    rw [Array.getElem?_modify, Array.getElem?_modify, Array.getElem?_modify]
    split
    · rw [Option.map_map]
      rfl
    · rfl
  simp only [modifyScope, h]

/-- Binds names in a scope one after the other, where they have a value. -/
def bindAll (w : World) (c : Nat) (entries : List Entry) : World :=
  w.modifyScope c (·.setAll (offers entries))

theorem bindAll_nil (w : World) (c : Nat) : w.bindAll c [] = w := by
  have h : w.store.scopes.modify c (fun s => s) = w.store.scopes := by
    apply Array.ext_getElem?
    intro i
    rw [Array.getElem?_modify]
    split
    · rw [Option.map_id_fun']
      rfl
    · rfl
  show w.modifyScope c (fun s => s) = w
  simp only [modifyScope, h]

theorem bindAll_append (w : World) (c : Nat) (first later : List Entry) :
    (w.bindAll c first).bindAll c later = w.bindAll c (first ++ later) := by
  unfold bindAll
  rw [modifyScope_modifyScope]
  simp only [setAll, offers, filterMap_append, foldl_append]

def sharedBy (w : World) (m : LoadedModule) : List Entry :=
  (w.scope m.scope).exported (m.outer.map w.scope)

end World

/-- The names that items are bound to, with their values in a module. -/
def itemBindings (shared : List Entry) (items : List Item) : List Entry :=
  items.map fun item => ((item.2.getD item.1).text, (shared.lookup item.1.text).join)

/-- What a name is bound to by items that are brought in, the last one first. -/
def itemValue? (shared : List Entry) (items : List Item) (x : String) : Option Binding :=
  items.reverse.findSome? fun item =>
    if (item.2.getD item.1).text = x then (shared.lookup item.1.text).join else none

theorem lookup_itemBindings (shared : List Entry) (items : List Item) (x : String) :
    (offers (itemBindings shared items)).reverse.lookup x = itemValue? shared items x := by
  have hreverse : (offers (itemBindings shared items)).reverse =
      offers (itemBindings shared items.reverse) := by
    rw [offers, offers, itemBindings, itemBindings, map_reverse, filterMap_reverse]
  rw [hreverse, itemValue?]
  induction items.reverse with
  | nil => rfl
  | cons item rest ih =>
    rw [findSome?_cons, ← ih, offers, itemBindings, map_cons, filterMap_cons]
    cases (shared.lookup item.1.text).join with
    | none =>
      rw [ite_self]
      rfl
    | some b =>
      rw [Option.map_some, lookup_entry]
      by_cases hx : x = (item.2.getD item.1).text
      · rw [if_pos hx, if_pos hx.symm]
      · rw [if_neg hx, if_neg (Ne.symm hx)]
        rfl

theorem get?_bindAll {u : World} {c : Nat} (hc : c < u.scopeCount) (shared : List Entry) (items : List Item)
    (x : String) : ((u.bindAll c (itemBindings shared items)).scope c).get? x =
      (itemValue? shared items x).or ((u.scope c).get? x) := by
  rw [bindAll, scope_modifyScope_self u _ hc, get?_setAll, lookup_itemBindings]

/-- The names that are bound by bringing in, with their values: all that a module shares, or some items. -/
def broughtBindings (shared : List Entry) : Option (List Item) → List Entry
  | none => shared
  | some items => itemBindings shared items

/-- The report of an item that a module does not share. -/
def missingItem (name : String) (frame : Frame) (item : Token) : Diagnostic :=
  ⟨.runtime frame.levels, some (Node.spanOf item).start, some (Node.spanOf item).stop,
    "Module '" ++ name ++ "' does not export '" ++ item.text ++ "'"⟩

section

variable {frame : Frame} {c : Nat} {outer : List Nat} (hs : frame.scopes = c :: outer)

include hs

theorem bindShared_eq (name : String) (value : Option Binding) (w : World) :
    bindShared frame name value w = .ok () (w.bindAll c [(name, value)]) := by
  cases value with
  | none =>
    show _ = EStateM.Result.ok () (w.bindAll c [])
    rw [bindAll_nil]
    rfl
  | some b =>
    unfold bindShared Eval.bind
    rw [hs]
    rfl

theorem bindAll_eq (shared : List Entry) (w : World) :
    (shared.forM fun e => bindShared frame e.1 e.2) w = .ok () (w.bindAll c shared) := by
  induction shared generalizing w with
  | nil => rw [bindAll_nil]; rfl
  | cons e shared ih =>
    refine (bind_ok (bindShared_eq hs e.1 e.2 w)).trans ?_
    rw [ih, bindAll_append]
    rfl

variable (name : String) (shared : List Entry)

theorem bindItems_append
    (hd : ∀ item ∈ done, (shared.lookup item.1.text).isSome = true) (rest : List Item) (w : World) :
    bindItems name frame shared (done ++ rest) w =
      bindItems name frame shared rest (w.bindAll c (itemBindings shared done)) := by
  induction done generalizing w with
  | nil => rw [show itemBindings shared [] = [] from rfl, bindAll_nil]; rfl
  | cons item done ih =>
    obtain ⟨value, hvalue⟩ := Option.isSome_iff_exists.1 (hd item mem_cons_self)
    have hstep : bindItems name frame shared (item :: (done ++ rest)) w =
        bindItems name frame shared (done ++ rest) (w.bindAll c [((item.2.getD item.1).text, value)]) := by
      rw [bindItems, hvalue]
      exact bind_ok (bindShared_eq hs _ _ _)
    rw [cons_append, hstep, ih fun i hi => hd i (mem_cons_of_mem _ hi), bindAll_append,
      itemBindings, itemBindings, map_cons, hvalue]
    rfl

/-- All names that a module shares are bound; of items, those before the first one that it does not share. -/
theorem bindBrought_ok {items : Option (List Item)}
    (hi : ∀ item ∈ items.getD [], (shared.lookup item.1.text).isSome = true) (w : World) :
    bindBrought name frame shared items w = .ok () (w.bindAll c (broughtBindings shared items)) := by
  cases items with
  | none => exact bindAll_eq hs shared w
  | some items =>
    have happend := bindItems_append hs name shared hi [] w
    rw [append_nil] at happend
    exact happend

theorem bindBrought_error
    (hd : ∀ item ∈ done, (shared.lookup item.1.text).isSome = true)
    (hi : shared.lookup item.1.text = none) (w : World) :
    bindBrought name frame shared (some (done ++ item :: rest)) w =
      .error (.error (missingItem name frame item.1)) (w.bindAll c (itemBindings shared done)) := by
  show bindItems name frame shared (done ++ item :: rest) w = _
  rw [bindItems_append hs name shared hd, bindItems, hi]
  rfl

end

theorem all_or_first {α : Type} (p : α → Bool) (l : List α) :
    (∀ a ∈ l, p a = true) ∨ ∃ done a rest, l = done ++ a :: rest ∧ (∀ x ∈ done, p x = true) ∧ p a = false := by
  cases h : l.find? (!p ·) with
  | none => exact .inl fun a ha => by simpa using find?_eq_none.1 h a ha
  | some a =>
    obtain ⟨ha, done, rest, heq, hd⟩ := find?_eq_some_iff_append.1 h
    exact .inr ⟨done, a, rest, heq, fun x hx => by simpa using hd x hx, by simpa using ha⟩

section

variable {span : Span} {path : Token} {items : Option (List Item)} {frame : Frame} {w u : World}
  {m : LoadedModule}

/-- Finds the module of a statement that brings it in. -/
def findBrought (span : Span) (path : Token) (frame : Frame) (w : World) : Outcome LoadedModule :=
  findModule evaluate span path.text frame (w.record (.brought path.text))

theorem bring_eq : bring evaluate span path items frame w =
    (findModule evaluate span path.text frame >>= fun m => exportsOf m >>= fun shared =>
      bindBrought path.text frame shared items >>= fun _ => pure null) (w.record (.brought path.text)) :=
  rfl

theorem bring_of_ok (h : findBrought span path frame w = .ok m u) :
    bring evaluate span path items frame w =
      (bindBrought path.text frame (u.sharedBy m) items >>= fun _ => pure null) u :=
  bring_eq.trans <| (bind_ok h).trans (bind_ok (x := exportsOf m) rfl)

theorem findBrought_of_error {s : Signal} {v : World} (h : evaluate (.bring span path items) frame w = .error s v)
    (he : s ≠ .exhausted) : findBrought span path frame w = .error s v ∨
      ∃ m u, findBrought span path frame w = .ok m u := by
  cases hf : findBrought span path frame w with
  | ok m u => exact .inr ⟨m, u, rfl⟩
  | error s' u =>
    have hstep := evaluate_eq_of_ends (h ▸ ends_error.2 he : Ends (evaluate (.bring span path items) frame w))
    rw [h] at hstep
    cases hstep.trans (bring_eq.trans (bind_error hf))
    exact .inl rfl

variable {c : Nat} {outer : List Nat}

variable (hs : frame.scopes = c :: outer) (h : findBrought span path frame w = .ok m u)
include hs h

theorem evaluate_bring_of_ok (hi : ∀ item ∈ items.getD [], ((u.sharedBy m).lookup item.1.text).isSome = true) :
    evaluate (.bring span path items) frame w =
      .ok null (u.bindAll c (broughtBindings (u.sharedBy m) items)) := by
  have hstep : step evaluate (.bring span path items) frame w = .ok null _ :=
    (bring_of_ok h).trans (bind_ok (bindBrought_ok hs path.text (u.sharedBy m) hi u))
  exact evaluate_ok hstep

theorem evaluate_bring_of_missing (hd : ∀ item ∈ done, ((u.sharedBy m).lookup item.1.text).isSome = true)
    (hi : (u.sharedBy m).lookup item.1.text = none) :
    evaluate (.bring span path (some (done ++ item :: rest))) frame w =
      .error (.error (missingItem path.text frame item.1)) (u.bindAll c (itemBindings (u.sharedBy m) done)) := by
  have hstep : step evaluate (.bring span path (some (done ++ item :: rest))) frame w = .error (.error _) _ :=
    (bring_of_ok h).trans (bind_error (bindBrought_error hs path.text (u.sharedBy m) hd hi u))
  exact evaluate_of_step hstep (ends_error.2 nofun)

/-- Where a module is found, a statement binds what it names up to the first item that the module does not share. -/
theorem evaluate_bring_cases (items : Option (List Item)) :
    (∀ item ∈ items.getD [], ((u.sharedBy m).lookup item.1.text).isSome = true) ∧
      evaluate (.bring span path items) frame w = .ok null (u.bindAll c (broughtBindings (u.sharedBy m) items)) ∨
    ∃ done item rest, items = some (done ++ item :: rest) ∧
      (∀ item ∈ done, ((u.sharedBy m).lookup item.1.text).isSome = true) ∧ (u.sharedBy m).lookup item.1.text = none ∧
      evaluate (.bring span path items) frame w =
        .error (.error (missingItem path.text frame item.1)) (u.bindAll c (itemBindings (u.sharedBy m) done)) := by
  rcases all_or_first (fun item => ((u.sharedBy m).lookup item.1.text).isSome) (items.getD []) with
    hall | ⟨done, item, rest, heq, hd, hi⟩
  · exact .inl ⟨hall, evaluate_bring_of_ok hs h hall⟩
  · obtain rfl : items = some (done ++ item :: rest) := by
      cases items with
      | none => simp at heq
      | some items => exact congrArg some heq
    have hi : (u.sharedBy m).lookup item.1.text = none := Option.isNone_iff_eq_none.1 (by simpa using hi)
    exact .inr ⟨done, item, rest, rfl, hd, hi, evaluate_bring_of_missing hs h hd hi⟩

end

/-- A scope shares given names expressly besides those that it shared so before, and binds the same; all other scopes
are the same, and so are all values. -/
structure SharesMore (c : Nat) (names : List String) (w w' : World) : Prop where
  exports : ∃ all, (w'.scope c).exports = some all ∧
    ∀ x, x ∈ all ↔ x ∈ (w.scope c).exports.getD [] ∨ x ∈ names
  bindings : ∀ n, (w'.scope n).bindings = (w.scope n).bindings
  others : ∀ n ≠ c, w'.scope n = w.scope n
  scopes : w'.scopeCount = w.scopeCount
  cells : w'.store.cells = w.store.cells
  tables : w'.store.tables = w.store.tables

namespace SharesMore

variable {c : Nat} {names : List String} {w v : World}

theorem beginSharing (hc : c < w.scopeCount) :
    SharesMore c [] w ((w.modifyScope c (·.beginSharing)).record (.sharing c)) where
  exports := ⟨(w.scope c).exports.getD [], by
    show ((w.modifyScope c _).scope c).exports = _
    rw [scope_modifyScope_self w _ hc]
    rfl, by simp⟩
  bindings n := by
    show ((w.modifyScope c _).scope n).bindings = _
    by_cases hn : n = c
    · rw [hn, scope_modifyScope_self w _ hc]
      rfl
    · rw [scope_modifyScope_of_ne w _ hn]
  others n hn := scope_modifyScope_of_ne w _ hn
  scopes := by simp
  cells := rfl
  tables := rfl

theorem addExport (h : SharesMore c names w v) (hc : c < w.scopeCount) (name : String) :
    SharesMore c (names ++ [name]) w ((v.modifyScope c (·.addExport name)).record (.shared c name)) := by
  have hv : c < v.scopeCount := h.scopes ▸ hc
  obtain ⟨all, hall, hmem⟩ := h.exports
  refine ⟨⟨((v.scope c).addExport name).exports.getD [], ?_, fun x => ?_⟩, fun n => ?_, fun n hn => ?_,
    ?_, h.cells,
    h.tables⟩
  · show ((v.modifyScope c _).scope c).exports = _
    rw [scope_modifyScope_self v _ hv]
    rfl
  · rw [mem_addExport, hall, Option.getD_some, hmem, mem_append, mem_singleton, or_comm, or_assoc]
  · show ((v.modifyScope c _).scope n).bindings = _
    by_cases hn : n = c
    · rw [hn, scope_modifyScope_self v _ hv, ← h.bindings c]
      rfl
    · rw [scope_modifyScope_of_ne v _ hn, h.bindings n]
  · exact (scope_modifyScope_of_ne v _ hn).trans (h.others n hn)
  · simpa using h.scopes

theorem lookup (h : SharesMore c names w v) (frame : Frame) (x : String) :
    v.store.lookup frame x = w.store.lookup frame x := by
  unfold Store.lookup
  induction frame.scopes with
  | nil => rfl
  | cons n outer ih =>
    simp only [map_cons, Scope.lookup, Scope.get?, h.bindings n, ih]

end SharesMore

def missingName (frame : Frame) (name : Token) : Diagnostic :=
  ⟨.runtime frame.levels, some (Node.spanOf name).start, some (Node.spanOf name).stop,
    "Cannot share undefined symbol '" ++ name.text ++ "'"⟩

section

variable {frame : Frame} {c : Nat} {outer : List Nat} {w v : World}

theorem shareNames_append {names : List String} (h : SharesMore c names w v) (hc : c < w.scopeCount)
    {done : List Token} (hd : ∀ t ∈ done, (w.store.lookup frame t.text).isSome = true) (rest : List Token) :
    ∃ u, SharesMore c (names ++ done.map Token.text) w u ∧
      shareNames frame c (done ++ rest) v = shareNames frame c rest u := by
  induction done generalizing names v with
  | nil => exact ⟨v, by rwa [map_nil, append_nil], rfl⟩
  | cons t done ih =>
    obtain ⟨b, hb⟩ := Option.isSome_iff_exists.1 (hd t mem_cons_self)
    have hlookup : lookup frame t.text v = .ok (some b) v := by
      rw [← hb, ← h.lookup frame t.text]
      rfl
    obtain ⟨u, hu, heq⟩ := ih (h.addExport hc t.text) fun t ht => hd t (mem_cons_of_mem _ ht)
    refine ⟨u, ?_, ?_⟩
    · rwa [append_assoc] at hu
    · rw [cons_append, shareNames, bind_ok hlookup]
      exact heq

variable (hs : frame.scopes = c :: outer)
include hs

theorem share_eq (names : List Token) : share names frame w = (shareNames frame c names >>= fun _ => pure null)
      ((w.modifyScope c (·.beginSharing)).record (.sharing c)) := by
  unfold share
  rw [hs]
  rfl

theorem evaluate_share_of_ok (hc : c < w.scopeCount) (span : Span)
    {names : List Token} (hd : ∀ t ∈ names, (w.store.lookup frame t.text).isSome = true) :
    ∃ v, evaluate (.share span names) frame w = .ok null v ∧ SharesMore c (names.map Token.text) w v := by
  obtain ⟨v, hv, heq⟩ := shareNames_append (SharesMore.beginSharing hc) hc hd []
  rw [append_nil] at heq
  have hstep : step evaluate (.share span names) frame w = .ok null v := (share_eq hs names).trans (bind_ok heq)
  exact ⟨v, evaluate_ok hstep, hv⟩

theorem evaluate_share_of_missing (hc : c < w.scopeCount) (span : Span)
    {done rest : List Token} {t : Token} (hd : ∀ t ∈ done, (w.store.lookup frame t.text).isSome = true)
    (ht : w.store.lookup frame t.text = none) :
    ∃ v, evaluate (.share span (done ++ t :: rest)) frame w = .error (.error (missingName frame t)) v ∧
      SharesMore c (done.map Token.text) w v := by
  obtain ⟨v, hv, heq⟩ := shareNames_append (SharesMore.beginSharing hc) hc hd (t :: rest)
  have hlookup : lookup frame t.text v = .ok none v := by
    rw [← ht, ← hv.lookup frame t.text]
    rfl
  have hmissing : shareNames frame c (t :: rest) v = .error (.error (missingName frame t)) v := by
    rw [shareNames, bind_ok hlookup]
    rfl
  have hstep : step evaluate (.share span (done ++ t :: rest)) frame w = .error (.error (missingName frame t)) v :=
    (share_eq hs _).trans (bind_error (heq.trans hmissing))
  exact ⟨v, evaluate_of_step hstep (ends_error.2 nofun), hv⟩

theorem evaluate_share_cases (hc : c < w.scopeCount) (span : Span) (names : List Token) :
    (∀ t ∈ names, (w.store.lookup frame t.text).isSome = true) ∧
      (∃ v, evaluate (.share span names) frame w = .ok null v ∧ SharesMore c (names.map Token.text) w v) ∨
    ∃ done name rest, names = done ++ name :: rest ∧ (∀ t ∈ done, (w.store.lookup frame t.text).isSome = true) ∧
      w.store.lookup frame name.text = none ∧
      ∃ v, evaluate (.share span names) frame w = .error (.error (missingName frame name)) v ∧
        SharesMore c (done.map Token.text) w v := by
  rcases all_or_first (fun t : Token => (w.store.lookup frame t.text).isSome) names with
    hall | ⟨done, name, rest, rfl, hd, hn⟩
  · exact .inl ⟨hall, evaluate_share_of_ok hs hc span hall⟩
  · have hn : w.store.lookup frame name.text = none := Option.isNone_iff_eq_none.1 (by simpa using hn)
    exact .inr ⟨done, name, rest, rfl, hd, hn, evaluate_share_of_missing hs hc span hd hn⟩

end

theorem findBrought_reaches {span : Span} {path : Token} {frame : Frame} {w : World}
    (he : Ends (findBrought span path frame w)) : Reaches default w (after (findBrought span path frame w)) := by
  have hnoted : Reaches default w (w.record (.brought path.text)) := .noted default w _ rfl rfl
  exact hnoted.trans (findModule_moves evaluate_moves span path.text frame _ he)

/-- A statement that brings in and ends without a result has bound nothing if no module was found; otherwise it has
bound the items before the first one that the module does not share, and it ends so exactly if there is one. A
statement that shares names ends without a result exactly if one of them means nothing, and has then shared those
before the first one of that kind, and the scope shares only what it shares expressly. -/
theorem failed_bring_and_share {frame : Frame} {c : Nat} {outer : List Nat} (hs : frame.scopes = c :: outer) {w : World}
    (hc : c < w.scopeCount) :
    (∀ span path items s v, evaluate (.bring span path items) frame w = .error s v → s ≠ .exhausted →
      findBrought span path frame w = .error s v ∧ SameBindings c w v ∨
      ∃ m u done item rest, items = some (done ++ item :: rest) ∧ findBrought span path frame w = .ok m u ∧
        SameBindings c w u ∧ (∀ item ∈ done, ((u.sharedBy m).lookup item.1.text).isSome = true) ∧
        (u.sharedBy m).lookup item.1.text = none ∧ s = .error (missingItem path.text frame item.1) ∧
        v = u.bindAll c (itemBindings (u.sharedBy m) done) ∧
        ∀ x, (v.scope c).get? x = (itemValue? (u.sharedBy m) done x).or ((u.scope c).get? x)) ∧
    (∀ span path items m u, findBrought span path frame w = .ok m u →
      ((∃ r v, evaluate (.bring span path items) frame w = .ok r v) ↔
        ∀ item ∈ items.getD [], ((u.sharedBy m).lookup item.1.text).isSome = true)) ∧
    (∀ span names s v, evaluate (.share span names) frame w = .error s v →
      ∃ done name rest, names = done ++ name :: rest ∧ (∀ t ∈ done, (w.store.lookup frame t.text).isSome = true) ∧
        w.store.lookup frame name.text = none ∧ s = .error (missingName frame name) ∧
        SharesMore c (done.map Token.text) w v) ∧
    ∀ span names, (∃ r v, evaluate (.share span names) frame w = .ok r v) ↔
      ∀ t ∈ names, (w.store.lookup frame t.text).isSome = true := by
  refine ⟨fun span path items s v h he => ?_, fun span path items m u hf => ?_, fun span names s v h => ?_,
    fun span names => ?_⟩
  · rcases findBrought_of_error h he with hf | ⟨m, u, hf⟩
    · have hreaches := findBrought_reaches (hf ▸ ends_error.2 he)
      rw [hf] at hreaches
      exact .inl ⟨hf, hreaches.sameBindings hc nofun⟩
    · have hreaches := findBrought_reaches (hf ▸ ends_ok m u)
      rw [hf] at hreaches
      have hsame : SameBindings c w u := hreaches.sameBindings hc nofun
      rcases evaluate_bring_cases hs hf items with ⟨-, heq⟩ | ⟨done, item, rest, hitems, hd, hi, heq⟩
      · cases h.symm.trans heq
      · cases h.symm.trans heq
        have hu : c < u.scopeCount := Nat.lt_of_lt_of_le hc hreaches.grows.scopes
        exact .inr ⟨m, u, done, item, rest, hitems, hf, hsame, hd, hi, rfl, rfl, get?_bindAll hu _ _⟩
  · rcases evaluate_bring_cases hs hf items with ⟨hall, heq⟩ | ⟨done, item, rest, rfl, -, hi, heq⟩
    · exact ⟨fun _ => hall, fun _ => ⟨_, _, heq⟩⟩
    · refine ⟨fun ⟨r, v, h⟩ => (nomatch h.symm.trans heq), fun hall => ?_⟩
      have := hall item (by simp)
      rw [hi] at this
      cases this
  · rcases evaluate_share_cases hs hc span names with ⟨-, u, heq, -⟩ | ⟨done, name, rest, hnames, hd, hn, u, heq, hu⟩
    · cases h.symm.trans heq
    · cases h.symm.trans heq
      exact ⟨done, name, rest, hnames, hd, hn, rfl, hu⟩
  · rcases evaluate_share_cases hs hc span names with ⟨hall, u, heq, -⟩ | ⟨done, name, rest, rfl, -, hn, u, heq, -⟩
    · exact ⟨fun _ => hall, fun _ => ⟨_, _, heq⟩⟩
    · refine ⟨fun ⟨r, v, h⟩ => (nomatch h.symm.trans heq), fun hall => ?_⟩
      have := hall name (by simp)
      rw [hn] at this
      cases this

namespace Sample

def word (text : String) : Token := ⟨.identifier, .text text, default, default⟩

/-- A session that sees a module `m` with the text `put 1 in a`. -/
def seesModule : World :=
  Session.start ⟨"/w", [(["m.uttr"], [112, 117, 116, 32, 49, 32, 105, 110, 32, 97])], "/h", []⟩ ""

def bringTwo : Node := .bring default (word "m") (some [(word "a", none), (word "b", none)])

/-- A session that sees a module `m` with the text `run("s.uttr")` and, on a second line, `x`, which means nothing, and
the script with the text `put 2 in b`. -/
def seesScript : World :=
  Session.start ⟨"/w", [(["m.uttr"], [114, 117, 110, 40, 34, 115, 46, 117, 116, 116, 114, 34, 41, 10, 120]),
    (["s.uttr"], [112, 117, 116, 32, 50, 32, 105, 110, 32, 98])], "/h", []⟩ ""

def failsBinding (x : String) : Outcome Ref → Bool
  | .error (.error _) v => ((v.scope globalScope).get? x).isSome
  | _ => false

theorem evaluate_failsBinding {node : Node} {w : World} {x : String}
    (h : failsBinding x (evaluateTo 9 node (programFrame "main") w) = true) :
    ∃ d v, evaluate node (programFrame "main") w = .error (.error d) v ∧
      ((v.scope globalScope).get? x).isSome = true := by
  generalize hr : evaluateTo 9 node (programFrame "main") w = r at h
  unfold failsBinding at h
  split at h
  · next d v => exact ⟨d, v, (evaluateTo_approximates 9 _ _).eq_of_error hr Signal.noConfusion, h⟩
  · cases h

theorem evaluate_bringTwo : ∃ d v, evaluate bringTwo (programFrame "main") seesModule = .error (.error d) v ∧
    ((v.scope globalScope).get? "a").isSome = true :=
  evaluate_failsBinding (by decide +kernel)

theorem failed_bring_second_item :
    ∃ s v, evaluate bringTwo (programFrame "main") seesModule = .error s v ∧ s ≠ .exhausted ∧
      (findBrought default (word "m") (programFrame "main") seesModule = .error s v ∧
        SameBindings globalScope seesModule v ∨
      ∃ m u done item rest, some [(word "a", none), (word "b", none)] = some (done ++ item :: rest) ∧
        findBrought default (word "m") (programFrame "main") seesModule = .ok m u ∧
        SameBindings globalScope seesModule u ∧
        (∀ item ∈ done, ((u.sharedBy m).lookup item.1.text).isSome = true) ∧
        (u.sharedBy m).lookup item.1.text = none ∧ s = .error (missingItem "m" (programFrame "main") item.1) ∧
        v = u.bindAll globalScope (itemBindings (u.sharedBy m) done) ∧
        ∀ x, (v.scope globalScope).get? x =
          (itemValue? (u.sharedBy m) done x).or ((u.scope globalScope).get? x)) := by
  obtain ⟨d, v, h, -⟩ := evaluate_bringTwo
  have hfailed := (@failed_bring_and_share (programFrame "main") _ _ rfl seesModule (by decide)).1
  exact ⟨.error d, v, h, Signal.noConfusion, hfailed _ _ _ _ _ h Signal.noConfusion⟩

/-- The item before the one that is missing stays bound, what a script binds that a failing module runs stays bound,
and a scope that shared everything shares nothing after it could not share a name. -/
theorem parts_stay :
    (∃ d v, evaluate bringTwo (programFrame "main") seesModule = .error (.error d) v ∧
      (seesModule.scope globalScope).get? "a" = none ∧
      ((v.scope globalScope).get? "a").isSome = true) ∧
    (∃ d v, evaluate (.bring default (word "m") none) (programFrame "main") seesScript = .error (.error d) v ∧
      (seesScript.scope globalScope).get? "b" = none ∧
      ((v.scope globalScope).get? "b").isSome = true) ∧
    ∃ d v, evaluate (.share default [word "b"]) (programFrame "main") seesModule = .error (.error d) v ∧
      (seesModule.scope globalScope).exports = none ∧
      (v.scope globalScope).exports = some [] := by
  refine ⟨?_, ?_, ?_⟩
  · obtain ⟨d, v, h, ha⟩ := evaluate_bringTwo
    exact ⟨d, v, h, by decide +kernel, ha⟩
  · obtain ⟨d, v, h, hb⟩ := @evaluate_failsBinding (.bring default (word "m") none) seesScript "b" (by decide +kernel)
    exact ⟨d, v, h, by decide +kernel, hb⟩
  · have run : ∃ d v, evaluateTo 1 (.share default [word "b"]) (programFrame "main") seesModule = .error (.error d) v ∧
        (v.scope globalScope).exports = some [] := ⟨_, _, rfl, rfl⟩
    obtain ⟨d, v, h, hv⟩ := run
    exact ⟨d, v, (evaluateTo_approximates 1 _ _).eq_of_error h Signal.noConfusion, rfl, hv⟩

end Sample

end Utterance

import Utterance.Proofs.Importing
import Utterance.Proofs.Loading

/-!
# The tables of loaded modules

A module is run in a scope of its own, and what it exports is read off that scope. While the module is loaded, nothing
is bound where it is brought in, unless it runs a script, which binds globally. When it has ended, no code has its
scope as the innermost one any more, so that nothing is bound or shared there (`Later.scope_eq`), and the loader
remembers the module for its path (`Later.remembers`). Hence a later statement that brings it in finds the same module
at once and binds the same values (`bring_imports`).
-/

namespace Utterance

open Eval Store List Scope

def Gets {α : Type} (x : Eval α) (w : World) (a : α) (u : World) : Prop := x w = .ok a u

section

variable {α β : Type} {x : Eval α} {f : α → Eval β} {w u : World} {b : β}

theorem Gets.bind (h : Gets (x >>= f) w b u) : ∃ a v, Gets x w a v ∧ Gets (f a) v b u := by
  unfold Gets at h ⊢
  cases hx : x w with
  | ok a v => exact ⟨a, v, rfl, (bind_ok hx).symm.trans h⟩
  | error s v =>
    rw [bind_error hx] at h
    cases h

theorem Gets.next {a : α} {v : World} (h : Gets (x >>= f) w b u) (hx : x w = .ok a v) : Gets (f a) v b u :=
  (bind_ok hx).symm.trans h

theorem Gets.after {a : α} {v : World} (h : Gets (f a) v b u) (hx : x w = .ok a v) : Gets (x >>= f) w b u :=
  (bind_ok hx).trans h

end

def moduleFrame (path : String) (scope : Nat) : Frame := ⟨[⟨path, none⟩], [scope, globalScope]⟩

variable {m : LoadedModule} {frame : Frame} {span : Span} {w : World}

variable {u : World} {name path : String}

/-- A module is run in a new scope and remembered when it has ended. -/
theorem runModule_gets {text : String} (h : Gets (runModule evaluate name path text) w (.ok m) u) :
    m = ⟨w.scopeCount, [globalScope]⟩ ∧
    ∃ tree ending v, runTree evaluate tree (moduleFrame path w.scopeCount) w.newScope = .ok ending v ∧
      u = { v with loader := (v.loader.endLoading path).remember path m, log := .completed path :: v.log } := by
  obtain ⟨prepared, v, hprepared, hrest⟩ := h.bind
  obtain rfl : v = w := by
    have hreads := prepare_reads ⟨path, text⟩ w
    rwa [show prepare _ _ = _ from hprepared] at hreads
  split at hrest
  · obtain ⟨_, _, -, hreport⟩ := (hrest.next rfl).bind
    cases hreport
  · next tree =>
    obtain ⟨ending, v', hrun, hended⟩ := (hrest.next rfl).bind
    replace hended := hended.next rfl
    split at hended
    · obtain ⟨_, _, -, hreport⟩ := (hended.next rfl).bind
      cases hreport
    · cases hended
      exact ⟨rfl, tree, _, v', hrun, rfl⟩

/-- The world in which a module is run: its loading is begun. -/
def World.beginModule (w : World) (path text : String) : World :=
  { w.record (.begun ⟨path, text⟩ w.loader) with loader := w.loader.beginLoading path }

theorem loadModule_gets (h : Gets (loadModule evaluate span name path frame) w m u) :
    path ∉ w.loader.loading ∧ ∃ text, Gets (runModule evaluate name path text) (w.beginModule path text) (.ok m) u := by
  replace h := h.next rfl
  split at h
  · cases h
  · next hloading =>
    refine ⟨fun hmem => hloading (contains_iff_mem.2 hmem), ?_⟩
    replace h := h.next rfl
    split at h
    · cases h
    · next text _ =>
      refine ⟨text, ?_⟩
      obtain ⟨result, v, hr, h⟩ := ((h.next rfl).next rfl).bind
      split at h
      · cases h
      · cases h
        unfold Gets at hr ⊢
        cases hrun : runModule evaluate name path text (w.beginModule path text) with
        | ok result v' => exact (tryCatch_ok hrun).symm.trans hr
        | error s v' =>
          -- a fault is reported, everything else goes on
          have hhandled := (tryCatch_error hrun).symm.trans hr
          cases s <;> cases hhandled

/-- A module that was not loaded before is loaded: its code is run in a new scope. -/
theorem findModule_gets (hfound : findModule? w.files name (askingFile frame) = some path)
    (hnew : w.loader.get? path = none)
    (h : Gets (findModule evaluate span name frame) w m u) :
    path ∉ w.loader.loading ∧ m = ⟨w.scopeCount, [globalScope]⟩ ∧
    ∃ text tree ending v, runTree evaluate tree (moduleFrame path m.scope) (w.beginModule path text).newScope =
        .ok ending v ∧
      u = { v with loader := (v.loader.endLoading path).remember path m, log := .completed path :: v.log } := by
  have hload : Gets (loadModule evaluate span name path frame) w m u := by
    replace h := h.next rfl
    rw [hfound] at h
    replace h := h.next rfl
    rwa [hnew] at h
  obtain ⟨hloading, text, hrun⟩ := loadModule_gets hload
  obtain ⟨rfl, tree, ending, v, hv, hu⟩ := runModule_gets hrun
  exact ⟨hloading, rfl, text, tree, ending, v, hv, hu⟩

/-- A module is remembered for a path that is not being loaded. -/
structure Remembers (path : String) (m : LoadedModule) (l : Loader LoadedModule) : Prop where
  get : l.get? path = some m
  idle : path ∉ l.loading

namespace Remembers

variable {q : String} {k : LoadedModule} {l : Loader LoadedModule}

theorem begun (h : Remembers path m l) (hq : l.isCached q = false) : Remembers path m (l.beginLoading q) := by
  refine ⟨h.get, fun hmem => ?_⟩
  rcases mem_append.1 hmem with hmem | hmem
  · exact h.idle hmem
  · rw [← mem_singleton.1 hmem, Loader.isCached, h.get] at hq
    cases hq

theorem ended (h : Remembers path m l) (q : String) : Remembers path m (l.endLoading q) :=
  ⟨h.get, fun hmem => h.idle (mem_of_mem_erase hmem)⟩

theorem completed (h : Remembers path m l) (hq : q ∈ l.loading) (k : LoadedModule) :
    Remembers path m ((l.endLoading q).remember q k) := by
  have hne : path ≠ q := fun heq => h.idle (heq ▸ hq)
  refine ⟨?_, (h.ended q).idle⟩
  rw [Loader.get?_remember, if_neg hne]
  exact h.get

end Remembers

/-- The contract of a loader that remembers a module. -/
def Contract.remembering (path : String) (m : LoadedModule) : Contract :=
  { Contract.loose with
    state := fun _ l _ => Remembers path m l
    noted := fun _ h => h
    begun := fun _ _ hcached h => h.begun hcached
    ended := fun q h => h.ended q
    completed := fun k hmem h => h.completed hmem k }

/-- A module that is remembered stays so, whatever is evaluated. -/
theorem evaluate_remembers (h : Remembers path m w.loader) (node : Node) (frame : Frame)
    (he : Ends (evaluate node frame w)) : Remembers path m (after (evaluate node frame w)).loader := by
  have holds : (Contract.remembering path m).Holds w.loader.loading w :=
    ⟨rfl, h, fun _ => ⟨fun _ _ => trivial, fun hs => hs.elim⟩⟩
  have hk := ((Contract.remembering path m).evaluate_keeps (P := True) (b := false) (fun _ => trivial)
    (fun _ hs => hs.elim) w.loader.loading w he trivial).2 trivial holds
  cases hr : evaluate node frame w with
  | ok r v =>
    rw [hr] at hk
    exact hk.state
  | error s v =>
    rw [hr] at hk
    obtain ⟨-, left, hleft, -⟩ := hk
    exact hleft.state

theorem loading_findModule (h : findModule evaluate span name frame w = .ok m u) :
    u.loader.loading = w.loader.loading := by
  have holds : Contract.loose.Holds w.loader.loading w :=
    ⟨rfl, trivial, fun _ => ⟨fun _ _ => trivial, fun hs => hs.elim⟩⟩
  have hk := (Contract.findModule_keeps (P := True) (b := false) (Contract.evaluate_keeps .loose)
    (fun _ => trivial) span
    name w.loader.loading w (by rw [h]; exact ends_ok _ _) trivial).2 trivial holds
  rw [h] at hk
  exact hk.loading

/-- A module that was loaded has a scope of its own, which shares what was shared in it on the way, and is
remembered. -/
structure Loaded (path : String) (m : LoadedModule) (happened : List Event) (w u : World) : Prop where
  log : u.log = happened ++ w.log
  scope : m.scope = w.scopeCount
  outer : m.outer = [globalScope]
  exists_scope : m.scope < u.scopeCount
  tracked : Tracked m.scope happened (u.scope m.scope)
  remembers : Remembers path m u.loader

theorem World.scope_newScope_self (w : World) : w.newScope.store.scope w.scopeCount = .empty := by
  unfold newScope scope
  rw [Array.getD_eq_getD_getElem?, Array.getElem?_push_size]
  rfl

theorem findBrought_loaded {path : Token} {p : String}
    (hfound : findModule? w.files path.text (askingFile frame) = some p) (hnew : w.loader.get? p = none)
    (h : findBrought span path frame w = .ok m u) : ∃ happened, Loaded p m happened w u := by
  obtain ⟨hloading, hm, text, tree, ending, v, hv, hu⟩ :=
    findModule_gets (w := w.record (.brought path.text)) hfound hnew h
  have hidle : p ∉ u.loader.loading := by rwa [loading_findModule h]
  -- the module runs in a scope that is new when its loading is begun
  generalize hstart : (w.record (.brought path.text)).beginModule p text = start at hv
  have hsize : start.scopeCount = m.scope := by rw [← hstart, hm]; rfl
  have hlog : start.newScope.log = [.begun ⟨p, text⟩ w.loader, .brought path.text] ++ w.log := by rw [← hstart]; rfl
  have hreach : Reaches (moduleFrame p m.scope) start.newScope v :=
    (runTree_moves evaluate_moves tree).reaches hv (ends_ok _ _)
  have hexists : m.scope < start.newScope.scopeCount := by simp [hsize]
  have hempty : Tracked m.scope [.begun ⟨p, text⟩ w.loader, .brought path.text]
      (start.newScope.store.scope m.scope) := by
    rw [← hsize, World.scope_newScope_self]
    exact ((Tracked.empty _).note rfl).note rfl
  obtain ⟨later, hlater, htracked⟩ := hreach.tracked hexists hempty
  refine ⟨.completed p :: (later ++ [.begun ⟨p, text⟩ w.loader, .brought path.text]), ?_⟩
  exact {
    log := by
      rw [hu]
      show Event.completed p :: v.log = _
      rw [hlater, hlog, ← append_assoc]
      rfl
    scope := by rw [hm]; rfl
    outer := by rw [hm]
    exists_scope := by
      rw [hu]
      exact Nat.lt_of_lt_of_le hexists hreach.grows.scopes
    tracked := by
      rw [hu]
      exact htracked.note rfl
    remembers := ⟨by rw [hu, Loader.get?_remember, if_pos rfl], hidle⟩ }

/-- What comes after a world in a process in which no code has the scope `n` as its innermost one any more, since the
module that it belongs to has ended: code is evaluated in other frames, wholly or in part, and modules are loaded. -/
inductive Later (n : Nat) : World → World → Prop
  | refl (w : World) : Later n w w
  | trans {w v u : World} : Later n w v → Later n v u → Later n w u
  | evaluated {node : Node} {frame : Frame} {w : World} : frame.scopes.head? ≠ some n → Ends (evaluate node frame w) →
    Later n w (after (evaluate node frame w))
  /-- A part of an evaluation that leaves the loader alone. -/
  | moved {frame : Frame} {w w' : World} : frame.scopes.head? ≠ some n → Reaches frame w w' → w'.loader = w.loader →
    Later n w w'
  | begun {w : World} {path : String} : w.loader.isCached path = false →
    Later n w { w with loader := w.loader.beginLoading path }
  | ended (w : World) (path : String) : Later n w { w with loader := w.loader.endLoading path }
  | completed {w : World} {path : String} (m : LoadedModule) : path ∈ w.loader.loading →
    Later n w { w with loader := (w.loader.endLoading path).remember path m }

namespace Later

variable {n : Nat} {w' : World}

theorem grows (h : Later n w w') : w.scopeCount ≤ w'.scopeCount := by
  induction h with
  | refl | begun | ended | completed => exact Nat.le_refl _
  | trans _ _ ih ih' => exact Nat.le_trans ih ih'
  | evaluated _ he => exact (evaluate_moves _ _ _ he).grows.scopes
  | moved _ h _ => exact h.grows.scopes

/-- Nothing is bound or shared any more in a scope that exists, unless it is the global one. -/
theorem scope_eq (h : Later n w w') (hn : n < w.scopeCount) (hg : n ≠ globalScope) : w'.scope n = w.scope n := by
  have same {w w' : World} (h : SameScope n w w') : w'.scope n = w.scope n :=
    h.resolve_right fun ⟨hglobal, _⟩ => hg hglobal
  induction h with
  | refl | begun | ended | completed => rfl
  | trans h _ ih ih' => exact (ih' (Nat.lt_of_lt_of_le hn h.grows)).trans (ih hn)
  | evaluated hs he => exact same ((evaluate_moves _ _ _ he).sameScope hn hs)
  | moved hs h _ => exact same (h.sameScope hn hs)

theorem remembers (h : Later n w w') {path : String} {m : LoadedModule} (hm : Remembers path m w.loader) :
    Remembers path m w'.loader := by
  induction h with
  | refl => exact hm
  | trans _ _ ih ih' => exact ih' (ih hm)
  | evaluated _ he => exact evaluate_remembers hm _ _ he
  | moved _ _ hl => rwa [hl]
  | begun hq => exact hm.begun hq
  | ended w q => exact hm.ended q
  | completed k hq => exact hm.completed hq k

/-- A later program of the session runs in the global scope. -/
theorem run (hn : n ≠ globalScope) (name text : String) (he : Ends (Session.run name text w)) :
    Later n w (after (Session.run name text w)) := by
  have hreads : after (prepare ⟨name, text⟩ w) = w := prepare_reads _ w
  unfold Session.run runText at he ⊢
  cases hp : prepare ⟨name, text⟩ w with
  | error s v =>
    rw [hp] at hreads
    rw [bind_error hp, show v = w from hreads]
    exact .refl w
  | ok prepared v =>
    rw [hp] at hreads
    rw [bind_ok hp, show v = w from hreads] at he ⊢
    cases prepared with
    | error d => exact .refl w
    | ok tree =>
      rw [after_runTree]
      exact .evaluated (fun h => hn (Option.some.inj h).symm) (ends_of_runTree he)

end Later

theorem World.modifyScope_eq_const (w : World) (n : Nat) (f : Scope Binding → Scope Binding) :
    w.modifyScope n f = w.modifyScope n fun _ => f (w.store.scope n) := by
  have h : w.store.scopes.modify n f = w.store.scopes.modify n fun _ => f (w.store.scope n) := by
    apply Array.ext_getElem?
    intro i
    rw [Array.getElem?_modify, Array.getElem?_modify]
    split
    · next hi =>
      subst hi
      rw [scope, Array.getD_eq_getD_getElem?]
      cases w.store.scopes[n]? <;> rfl
    · rfl
  simp only [modifyScope, h]

/-- What a name that a module exports stands for in a world, where `happened` is what happened while it was loaded: if
names were shared in the module, those that were, with what they mean in its scope, and otherwise the names of its own
table that do not begin with an underscore. -/
def LoadedModule.export? (m : LoadedModule) (happened : List Event) (w : World) (x : String) : Option Binding :=
  if happened.any (·.isSharingIn m.scope) then
    if happened.any (·.shares m.scope x) then lookup x ((m.scope :: m.outer).map w.scope) else none
  else if x.toList.head? = some '_' then none else (w.scope m.scope).get? x

theorem offer?_eq {happened : List Event} (h : Tracked m.scope happened (w.scope m.scope)) (x : String) :
    (w.scope m.scope).offer? (m.outer.map w.scope) x = m.export? happened w x := by
  have hshared := h.shared x
  have hsharing := h.sharing
  unfold offer? isExported LoadedModule.export?
  rw [← hsharing]
  cases he : (w.scope m.scope).exports with
  | none =>
    by_cases hx : x.toList.head? = some '_'
    · simp [hx]
    · simp [hx]
  | some names =>
    rw [he, Option.getD_some, ← contains_iff_mem] at hshared
    by_cases hx : names.contains x = true
    · simp only [Option.isSome_some, if_true, if_pos hx, if_pos (hshared.1 hx)]
      rfl
    · simp only [Option.isSome_some, if_true, if_neg hx, if_neg (mt hshared.2 hx)]

/-- What a name is bound to by a statement that brings in: everything, or the items that it names, the last one
first. -/
def imported (exported : String → Option Binding) (x : String) : Option (List Item) → Option Binding
  | none => exported x
  | some items =>
    (items.reverse.find? fun item => (item.2.getD item.1).text = x).bind fun item => exported item.1.text

/-- Names are brought in from a module that exports given ones: the outcome of a statement in a scope, where the
module is found in the world `v`. -/
structure Imports (exported : String → Option Binding) (c : Nat) (items : Option (List Item))
    (v : World) (r : Outcome Ref) : Prop where
  /-- The statement ends well exactly if every item is exported. -/
  succeeds : (∃ q v', r = .ok q v') ↔ ∀ item ∈ items.getD [], (exported item.1.text).isSome = true
  /-- It changes the scope only, which binds the names that are brought in and otherwise the same as before. -/
  binds : ∀ q v', r = .ok q v' → q = null ∧ v' = v.modifyScope c (fun _ => v'.scope c) ∧
    (v'.scope c).exports = (v.scope c).exports ∧
    ∀ x, (v'.scope c).get? x = (imported exported x items).or ((v.scope c).get? x)

theorem itemValue?_eq {shared : List Entry} {exported : String → Option Binding}
    (hlookup : ∀ x, shared.lookup x = (exported x).map some) {items : List Item}
    (hi : ∀ item ∈ items, (exported item.1.text).isSome = true) (x : String) :
    itemValue? shared items x = imported exported x (some items) := by
  have hi' : ∀ item ∈ items.reverse, (exported item.1.text).isSome = true := fun item hm => hi item (mem_reverse.1 hm)
  rw [itemValue?, imported]
  generalize items.reverse = l at hi' ⊢
  induction l with
  | nil => rfl
  | cons item rest ih =>
    obtain ⟨b, hb⟩ := Option.isSome_iff_exists.1 (hi' item mem_cons_self)
    rw [findSome?_cons, find?_cons, hlookup, hb]
    by_cases hx : (item.2.getD item.1).text = x
    · rw [if_pos hx, decide_eq_true hx]
      exact hb.symm
    · rw [if_neg hx, decide_eq_false hx]
      exact ih fun item hm => hi' item (mem_cons_of_mem _ hm)

/-- Where the module is found, a statement imports what the module exports. -/
theorem evaluate_bring_imports {path : Token} {c : Nat} {outer : List Nat} (hs : frame.scopes = c :: outer)
    (hc : c < u.scopeCount)
    (hfind : findBrought span path frame w = .ok m u) {happened : List Event}
    (ht : Tracked m.scope happened (u.scope m.scope)) (items : Option (List Item)) :
    Imports (m.export? happened u) c items u (evaluate (.bring span path items) frame w) := by
  have hlookup (x : String) : (u.sharedBy m).lookup x = (m.export? happened u x).map some := by
    rw [World.sharedBy, ht.tidy.lookup_exported, offer?_eq ht]
  have hisSome (x : String) : ((u.sharedBy m).lookup x).isSome = (m.export? happened u x).isSome := by
    rw [hlookup, Option.isSome_map]
  rcases evaluate_bring_cases hs hfind items with ⟨hall, heq⟩ | ⟨done, item, rest, rfl, -, hi, heq⟩
  · simp only [hisSome] at hall
    refine ⟨⟨fun _ => hall, fun _ => ⟨_, _, heq⟩⟩, fun q v' h => ?_⟩
    cases heq.symm.trans h
    have hscope : (u.bindAll c (broughtBindings (u.sharedBy m) items)).scope c = _ :=
      World.scope_modifyScope_self u _ hc
    refine ⟨rfl, ?_, ?_, fun x => ?_⟩
    · rw [hscope]
      exact World.modifyScope_eq_const u c _
    · rw [hscope, setAll_exports]
    · rw [hscope, get?_setAll]
      congr 1
      cases items with
      | none =>
        show (offers (u.sharedBy m)).reverse.lookup x = m.export? happened u x
        rw [World.sharedBy, ht.tidy.lookup_offers, offer?_eq ht]
      | some items => exact (lookup_itemBindings _ items x).trans (itemValue?_eq hlookup hall x)
  · have hmissing : ¬ ∀ i ∈ done ++ item :: rest, (m.export? happened u i.1.text).isSome = true := by
      intro hall
      have := hall item (by simp)
      rw [← hisSome, hi] at this
      cases this
    exact ⟨⟨fun ⟨q, v', h⟩ => (nomatch heq.symm.trans h), fun hall => absurd hall hmissing⟩,
      fun q v' h => (nomatch heq.symm.trans h)⟩

theorem findBrought_of_remembers {path : Token} {p : String}
    (hfound : findModule? w.files path.text (askingFile frame) = some p)
    (hm : Remembers p m w.loader) : findBrought span path frame w = .ok m (w.record (.brought path.text)) := by
  have hget : (w.record (.brought path.text)).loader.get? p = some m := hm.get
  refine Gets.after (x := get) ?_ rfl
  rw [show findModule? (w.record (.brought path.text)).files _ _ = _ from hfound]
  refine Gets.after (x := loader) ?_ rfl
  rw [hget]
  rfl

/-- A statement that brings in a module and loads it binds in its scope exactly what the module exports, or the items
that it names if the module exports them all. The table of the module stays as it is from then on: whenever and
wherever the module is brought in later, it is found at once, without any of its code being run, and what it exports
of its own table is the same. -/
theorem bring_imports {span : Span} {path : Token} {p : String} {frame : Frame} {w u : World} {m : LoadedModule}
    (hglobal : globalScope < w.scopeCount)
    (hfound : findModule? w.files path.text (askingFile frame) = some p) (hnew : w.loader.get? p = none)
    (hload : findBrought span path frame w = .ok m u) :
    ∃ happened, u.log = happened ++ w.log ∧
      (∀ c outer items, frame.scopes = c :: outer → c < w.scopeCount →
        SameBindings c w u ∧ Imports (m.export? happened u) c items u (evaluate (.bring span path items) frame w)) ∧
      ∀ w', Later m.scope u w' →
        w'.scope m.scope = u.scope m.scope ∧
        (∀ x b, (u.scope m.scope).get? x = some b → m.export? happened w' x = m.export? happened u x) ∧
        ∀ span' path' frame', findModule? w'.files (Token.text path') (askingFile frame') = some p →
          findBrought span' path' frame' w' = .ok m (w'.record (.brought path'.text)) ∧
          ∀ c outer items, frame'.scopes = c :: outer → c < w'.scopeCount →
            Imports (m.export? happened w') c items (w'.record (.brought path'.text))
              (evaluate (.bring span' path' items) frame' w') := by
  obtain ⟨happened, loaded⟩ := findBrought_loaded hfound hnew hload
  have hne : m.scope ≠ globalScope := by
    rw [loaded.scope]
    exact Nat.ne_of_gt hglobal
  refine ⟨happened, loaded.log, fun c outer items hs hc => ⟨?_, ?_⟩, fun w' later => ⟨?_, fun x b hx => ?_, ?_⟩⟩
  · have hreaches := findBrought_reaches (hload ▸ ends_ok m u)
    rw [hload] at hreaches
    exact hreaches.sameBindings hc nofun
  · exact evaluate_bring_imports hs (Nat.lt_trans (loaded.scope ▸ hc) loaded.exists_scope) hload loaded.tracked items
  · exact later.scope_eq loaded.exists_scope hne
  · have hown : (w'.scope m.scope).get? x = some b := by rw [later.scope_eq loaded.exists_scope hne, hx]
    simp only [LoadedModule.export?, map_cons, Scope.lookup, hown, hx]
    rfl
  · intro span' path' frame' hfound'
    have hfind : findBrought span' path' frame' w' = _ :=
      findBrought_of_remembers hfound' (later.remembers loaded.remembers)
    refine ⟨hfind, fun c outer items hs hc => ?_⟩
    have ht : Tracked m.scope happened (w'.scope m.scope) := by
      rw [later.scope_eq loaded.exists_scope hne]
      exact loaded.tracked
    exact evaluate_bring_imports (u := w'.record (.brought path'.text)) hs hc hfind ht items

namespace Sample

def moduleToken : Token := ⟨.identifier, .text "m", default, default⟩

/-- A session that sees a module `m`, which binds `a` and `b` and shares `b`. -/
def sharing : World :=
  Session.start ⟨"/w", [(["m.uttr"], [112, 117, 116, 32, 49, 32, 105, 110, 32, 97, 10, 112, 117, 116, 32, 50, 32, 105,
    110, 32, 98, 10, 115, 104, 97, 114, 101, 32, 98])], "/h", []⟩ ""

/-- The module is loaded, and something holds of it. -/
def loadsWith (check : LoadedModule → World → Bool) (w : World) : Bool :=
  match findModule (evaluateTo 9) default "m" (programFrame "main") (w.record (.brought "m")) with
  | .ok m u => check m u
  | .error .. => false

theorem exists_load (check : LoadedModule → World → Bool) (h : loadsWith check w = true) :
    ∃ m u, findBrought default moduleToken (programFrame "main") w = .ok m u ∧ check m u = true := by
  unfold loadsWith at h
  split at h
  · next m u hr => exact ⟨m, u, (findModule_approximates (evaluateTo_approximates 9) _ _ _).eq_of_ok hr, h⟩
  · cases h

theorem bring_imports_second :
    ∃ m u, findBrought default moduleToken (programFrame "main") sharing = .ok m u ∧
      (m.export? u.log u "b").isSome = true ∧ m.export? u.log u "a" = none ∧
      (∃ v, evaluate (.bring default moduleToken none) (programFrame "main") sharing = .ok null v ∧
        (v.scope globalScope).get? "b" = m.export? u.log u "b") ∧
      ∀ w' frame', Later m.scope u w' → findModule? w'.files "m" (askingFile frame') = some "/w/m.uttr" →
        findBrought default moduleToken frame' w' = .ok m (w'.record (.brought "m")) := by
  obtain ⟨m, u, hload, hshares⟩ := exists_load
    (fun m u => (m.export? u.log u "b").isSome && (m.export? u.log u "a").isNone)
    (show loadsWith _ sharing = true by decide +kernel)
  obtain ⟨hsecond, hfirst⟩ := Bool.and_eq_true_iff.1 hshares
  obtain ⟨happened, hlog, himports, hlater⟩ :=
    bring_imports (p := "/w/m.uttr") (by decide) (by decide +kernel) (by decide +kernel) hload
  obtain rfl : happened = u.log := by rw [hlog]; exact (append_nil _).symm
  obtain ⟨-, himport⟩ := himports globalScope [] none rfl (by decide)
  obtain ⟨q, v, hv⟩ := himport.succeeds.2 (by simp)
  obtain ⟨rfl, -, -, hbound⟩ := himport.binds q v hv
  refine ⟨m, u, hload, hsecond, Option.isNone_iff_eq_none.1 hfirst, ⟨v, hv, ?_⟩, fun w' frame' later hfound => ?_⟩
  · obtain ⟨b, hb⟩ := Option.isSome_iff_exists.1 hsecond
    rw [hbound, imported, hb, Option.some_or]
  · exact ((hlater w' later).2.2 default moduleToken frame' hfound).1

/-- A session that sees a module `m`, which runs a script and binds `a`, and the script, which binds `b`. -/
def running : World :=
  Session.start ⟨"/w", [(["m.uttr"], [114, 117, 110, 40, 34, 115, 46, 117, 116, 116, 114, 34, 41, 10, 112, 117, 116, 32,
    49, 32, 105, 110, 32, 97]), (["s.uttr"], [112, 117, 116, 32, 50, 32, 105, 110, 32, 98])], "/h", []⟩ ""

/-- Where a module that runs a script is brought in globally, what the script binds is bound as well. -/
theorem script_binds_globally :
    ∃ m u v, findBrought default moduleToken (programFrame "main") running = .ok m u ∧
      m.export? u.log u "b" = none ∧
      evaluate (.bring default moduleToken none) (programFrame "main") running = .ok null v ∧
      (running.scope globalScope).get? "b" = none ∧
      ((v.scope globalScope).get? "b").isSome = true := by
  obtain ⟨m, u, hload, hkeeps⟩ := exists_load
    (fun m u => (m.export? u.log u "b").isNone && ((u.scope globalScope).get? "b").isSome)
    (show loadsWith _ running = true by decide +kernel)
  obtain ⟨hexport, hbound⟩ := Bool.and_eq_true_iff.1 hkeeps
  obtain ⟨happened, loaded⟩ := findBrought_loaded (p := "/w/m.uttr") (by decide +kernel) (by decide +kernel) hload
  obtain rfl : happened = u.log := by rw [loaded.log]; exact (append_nil _).symm
  have himport := evaluate_bring_imports (c := globalScope) rfl
    (Nat.lt_trans (loaded.scope ▸ by decide) loaded.exists_scope) hload loaded.tracked none
  obtain ⟨q, v, hv⟩ := himport.succeeds.2 (by simp)
  obtain ⟨rfl, -, -, hget⟩ := himport.binds q v hv
  have hnone := Option.isNone_iff_eq_none.1 hexport
  refine ⟨m, u, v, hload, hnone, hv, by decide +kernel, ?_⟩
  rw [hget, imported, hnone, Option.none_or]
  exact hbound

end Sample

end Utterance

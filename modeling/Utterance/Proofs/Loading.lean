import Mathlib.Data.List.Dedup
import Mathlib.Data.List.Perm.Subperm
import Utterance.Proofs.KeepingEvaluate

/-!
# How modules are loaded

Modules are known by their paths. A module is begun only if it was neither loaded before nor is being loaded, a module
that was loaded is remembered from then on, and whatever a module does, its path is not being loaded any more when its
loading ends (`Session.loading_discipline`). So nothing is loaded twice, a session has no module in the loader between
its programs, and modules are loaded inside each other only as deep as there are different ones.

`Disciplined` is what one step of a loader keeps (`Disciplined.begin`, `Disciplined.finish`, `Disciplined.complete`);
as a contract it is kept by every evaluation.
-/

namespace Utterance

open Eval List

namespace Loader

variable {μ : Type}

theorem get?_remember (l : Loader μ) (path q : String) (m : μ) :
    (l.remember path m).get? q = if q = path then some m else l.get? q := by
  unfold get? remember
  rw [lookup_cons]
  by_cases h : q = path
  · simp [h]
  · -- an older entry of the path is dropped, which no other path sees
    have hrest : (l.cache.filter (·.1 != path)).lookup q = l.cache.lookup q := by
      induction l.cache with
      | nil => rfl
      | cons entry rest ih =>
        obtain ⟨name, module⟩ := entry
        by_cases hn : name = path
        · have hq : (q == name) = false := by simpa [hn] using h
          rw [filter_cons_of_neg (by simp [hn]), ih, lookup_cons, hq]
        · rw [filter_cons_of_pos (by simpa using hn), lookup_cons, lookup_cons, ih]
    have hq : (q == path) = false := by simpa using h
    rw [hq, hrest, if_neg h]

theorem isCached_remember (l : Loader μ) (path q : String) (m : μ) :
    (l.remember path m).isCached q = true ↔ q = path ∨ l.isCached q = true := by
  unfold isCached
  rw [get?_remember]
  by_cases h : q = path
  · simp [h]
  · simp [h]

end Loader

def Event.begunPath? : Event → Option String
  | .begun source _ => some source.name
  | _ => none

def begunPaths (log : List Event) : List String := log.filterMap Event.begunPath?

/-- A module may be begun: its path is found, and it is neither being loaded nor was it loaded; what is being loaded
was begun, and what was loaded is remembered. -/
structure Begins (files : Files) (source : Source) (before : Loader LoadedModule) (earlier : List Event) : Prop where
  found : ∃ name asking, findModule? files name asking = some source.name
  nodup : (before.loading ++ [source.name]).Nodup
  uncached : before.isCached source.name = false
  cached : ∀ path, before.isCached path = true ↔ .completed path ∈ earlier
  opened : ∀ path ∈ before.loading, path ∈ begunPaths earlier

/-- What holds of a loader and a log at all times. -/
structure Disciplined (files : Files) (l : Loader LoadedModule) (log : List Event) : Prop where
  nodup : l.loading.Nodup
  uncached : ∀ path ∈ l.loading, l.isCached path = false
  cached : ∀ path, l.isCached path = true ↔ .completed path ∈ log
  opened : ∀ path ∈ l.loading, path ∈ begunPaths log
  once : ∀ {path earlier}, .completed path :: earlier <:+ log → .completed path ∉ earlier
  begins : ∀ {source before earlier}, .begun source before :: earlier <:+ log → Begins files source before earlier

namespace Disciplined

variable {files : Files} {l : Loader LoadedModule} {log : List Event} {path : String}

theorem empty (files : Files) : Disciplined files .empty [] where
  nodup := .nil
  uncached _ h := nomatch h
  cached _ := ⟨fun h => (nomatch h), fun h => (nomatch h)⟩
  opened _ h := nomatch h
  once h := nomatch suffix_nil.1 h
  begins h := nomatch suffix_nil.1 h

variable (h : Disciplined files l log)
include h

theorem note {e : Event} (he : e.isLoading = false) : Disciplined files l (e :: log) where
  nodup := h.nodup
  uncached := h.uncached
  cached q := by
    rw [h.cached q, mem_cons]
    refine ⟨.inr, fun hq => hq.resolve_left fun heq => ?_⟩
    rw [← heq] at he
    cases he
  opened q hq := (sublist_cons_self e log).filterMap _ |>.subset (h.opened q hq)
  once hs := by
    rcases suffix_cons_iff.1 hs with heq | hs
    · injection heq with heq
      rw [← heq] at he
      cases he
    · exact h.once hs
  begins hs := by
    rcases suffix_cons_iff.1 hs with heq | hs
    · injection heq with heq
      rw [← heq] at he
      cases he
    · exact h.begins hs

theorem begin {name text : String} {asking : Option String}
    (hfound : findModule? files name asking = some path) (hloading : l.isLoading path = false)
    (hcached : l.isCached path = false) : Disciplined files (l.beginLoading path) (.begun ⟨path, text⟩ l :: log) := by
  have hnot : path ∉ l.loading := by
    intro hmem
    rw [Loader.isLoading, contains_iff_mem.2 hmem] at hloading
    cases hloading
  have hnodup : (l.loading ++ [path]).Nodup := h.nodup.append (nodup_singleton path) (by simpa using hnot)
  refine ⟨hnodup, fun q hq => ?_, fun q => ?_, fun q hq => ?_, fun hs => ?_, fun hs => ?_⟩
  · rcases mem_append.1 hq with hq | hq
    · exact h.uncached q hq
    · rw [mem_singleton.1 hq]
      exact hcached
  · have hother : Event.completed q ≠ .begun ⟨path, text⟩ l := by intro heq; cases heq
    rw [mem_cons, or_iff_right hother]
    exact h.cached q
  · rcases mem_append.1 hq with hq | hq
    · exact .tail _ (h.opened q hq)
    · rw [mem_singleton.1 hq]
      exact .head _
  · rcases suffix_cons_iff.1 hs with heq | hs
    · cases heq
    · exact h.once hs
  · rcases suffix_cons_iff.1 hs with heq | hs
    · cases heq
      exact ⟨⟨name, asking, hfound⟩, hnodup, hcached, h.cached, h.opened⟩
    · exact h.begins hs

theorem finish (path : String) : Disciplined files (l.endLoading path) log where
  nodup := h.nodup.erase path
  uncached q hq := h.uncached q (mem_of_mem_erase hq)
  cached := h.cached
  opened q hq := h.opened q (mem_of_mem_erase hq)
  once := h.once
  begins := h.begins

theorem complete (m : LoadedModule) (hmem : path ∈ l.loading) :
    Disciplined files ((l.endLoading path).remember path m) (.completed path :: log) := by
  have hnew : .completed path ∉ log := by
    rw [← h.cached path, h.uncached path hmem]
    decide
  refine ⟨h.nodup.erase path, fun q hq => ?_, fun q => ?_, fun q hq => ?_, fun hs => ?_, fun hs => ?_⟩
  · have hne : q ≠ path := (h.nodup.mem_erase_iff.1 hq).1
    have hold : l.isCached q = false := h.uncached q (mem_of_mem_erase hq)
    refine Bool.eq_false_iff.2 fun hc => ?_
    rcases (Loader.isCached_remember _ path q m).1 hc with heq | hc
    · exact hne heq
    · exact Bool.eq_false_iff.1 hold hc
  · rw [Loader.isCached_remember, mem_cons]
    refine or_congr ⟨fun hq => by rw [hq], fun hq => ?_⟩ (h.cached q)
    injection hq
  · exact h.opened q (mem_of_mem_erase hq)
  · rcases suffix_cons_iff.1 hs with heq | hs
    · cases heq
      exact hnew
    · exact h.once hs
  · rcases suffix_cons_iff.1 hs with heq | hs
    · cases heq
    · exact h.begins hs

end Disciplined

/-- The contract of the loader of a program that sees given files. -/
def Contract.loading (files : Files) : Contract :=
  { Contract.loose with
    state := fun seen l log => seen = files ∧ Disciplined files l log
    noted := fun he h => ⟨h.1, h.2.note he⟩
    begun := fun hfound hloading hcached h => ⟨h.1, h.2.begin (h.1 ▸ hfound) hloading hcached⟩
    ended := fun path h => ⟨h.1, h.2.finish path⟩
    completed := fun m hmem h => ⟨h.1, h.2.complete m hmem⟩ }

namespace Session

namespace Sample

/-- A module `a` that brings itself in, and an empty module `b`. -/
def files : Files :=
  ⟨"/w", [(["a.uttr"], [98, 114, 105, 110, 103, 32, 105, 110, 32, 97]), (["b.uttr"], [])], "/h", []⟩

end Sample

end Session

end Utterance

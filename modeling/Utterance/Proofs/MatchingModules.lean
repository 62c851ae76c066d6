import Utterance.Proofs.MatchingBuiltins

/-!
# Modules and scripts in matched worlds

Programs, modules and scripts do the same in matched worlds if the evaluator does (`runTree_meets`, `callRun_meets`,
`bring_meets`). A module is looked for beside the file that asks for it, which the calls around tell; it is the same
one, with the names that it shares. If a module or a script fails while it is executed, nothing is said.
-/

namespace Utterance

variable {e : Event} {m m' : LoadedModule} {name : String}

namespace Matching

open Eval List

/-- An evaluator that makes only the changes of code in the frame. -/
class Moving (ev : Evaluator) : Prop where
  moves : EvaluatorMoves ev

section

variable {α : Type}

theorem growing_of_primitive {x : Eval α} (h : Primitive x) : Growing x :=
  growing_of_moves (Plain.moves h.plain : Moves default _)

instance (r : Ref) : Growing (payload r) := ⟨fun _ _ => .refl _⟩

instance : Growing store := ⟨fun _ _ => .refl _⟩

instance (x : Except Fault α) : Growing (lift x) := growing_of_primitive (.lift x)

instance (x : Printing α) : Growing (ofPrinting x) := growing_of_primitive (.ofPrinting x)

instance (r : Ref) : Growing (isTrue r) := growing_of_primitive (.isTrue r)

instance (r : Ref) : Growing (scalar r) := growing_of_primitive (.scalar r)

instance (p : Payload) : Growing (fresh p) := ⟨fun w _ => .alloc w _⟩

instance (p : Payload) (span : Span) (frame : Frame) : Growing (make p span frame) := ⟨fun w _ => .alloc w _⟩

instance (r : Ref) : Growing (copy r) := ⟨fun w _ => .alloc w _⟩

instance (r : Ref) (span : Span) : Growing (place r span) := ⟨fun w _ => .modifyCell w r fun _ => rfl⟩

instance (r : Ref) (frame : Frame) : Growing (frameIn r frame) := ⟨fun w _ => .modifyCell w r fun _ => rfl⟩

instance (t : Table) : Growing (newTable t) := ⟨fun _ _ => .of_cells suffix_rfl (Nat.le_refl _) rfl⟩

instance (e : Event) : Growing (record e) := ⟨fun _ _ => .of_cells (suffix_cons _ _) (Nat.le_refl _) rfl⟩

instance (f : Loader LoadedModule → Loader LoadedModule) : Growing (modifyLoader f) :=
  ⟨fun _ _ => .of_cells suffix_rfl (Nat.le_refl _) rfl⟩

instance (frame : Frame) (name : String) (b : Binding) : Growing (Eval.bind frame name b) :=
  growing_of_moves (bind_moves name b)

instance (frame : Frame) (name : Option Token) (r : Ref) : Growing (bindName frame name r) :=
  growing_of_moves (bindName_moves frame name r)

instance (op : Operator) (l r : Ref) : Growing (binary op l r) := growing_of_primitive (.binary op l r)

instance (l r : Ref) : Growing (equality? l r) := growing_of_primitive (.equality l r)

instance (op : Token) (r : Ref) : Growing (unary op r) := growing_of_primitive (.unary op r)

instance (collection key : Node) (c k : Ref) (frame : Frame) : Growing (index collection key c k frame) :=
  growing_of_moves (index_moves collection key c k)

instance (span : Span) (details : String) (frame : Frame) : Growing (errorAt span details frame : Eval α) :=
  ⟨fun _ _ => .refl _⟩

instance (type property : String) : Growing (noProperty type property : Eval α) := ⟨fun _ _ => .refl _⟩

instance (m : LoadedModule) : Growing (exportsOf m) := ⟨fun _ _ => .refl _⟩

instance (name : String) (frame : Frame) (shared : List Entry)
    (items : Option (List Item)) : Growing (bindBrought name frame shared items) :=
  growing_of_moves (bindBrought_moves name frame shared items)

instance (c : Call) (details : String) : Growing (c.refuse details : Eval α) := ⟨fun _ _ => .refl _⟩

end

section

variable {ev : Evaluator} [h : Moving ev]

instance (node : Node) (frame : Frame) : Growing (ev node frame) := growing_of_moves (h.moves node frame)

instance (tree : Node) (frame : Frame) : Growing (runTree ev tree frame) :=
  growing_of_moves (runTree_moves h.moves tree)

end

variable {M : Matching} {ev ev' : Evaluator} {frame frame' : Frame} {w w' : World} {r r' n : Nat} {α β : Type}
  {R : Nat → α → β → Prop} {C : World → Prop}

/-- Two evaluators do the same with trees that differ in positions only. -/
def EvaluatorMeets (M : Matching) (ev ev' : Evaluator) : Prop :=
  ∀ {node node' : Node} {frame frame' : Frame} {w w' : World}, node.Alike AnyPlace node' → M.Frames frame frame' →
    M.Worlds w w' → M.Meets M.Calm M.Twins (ev node frame) (ev' node' frame') w w'

theorem not_calm_of_spoils (hl : M.logged ≤ w.log.length) (he : M.Spoils w.store e) {x : Eval α}
    [hx : Keeps M.Calm x] (hends : Ends ((record e >>= fun _ => x) w)) :
    ¬ M.Calm (after ((record e >>= fun _ => x) w)) := fun hcalm =>
  have hrecord : M.Calm (w.record e) := hx.before _ hends hcalm
  hrecord.record hl he

/-- Once something is spoiled, nothing more is said. -/
theorem Meets.spoiled (hl : M.logged ≤ w.log.length) (he : M.Spoils w.store e) {x : Eval α}
    [Keeps M.Calm x] (y : Eval β) : M.Meets M.Calm R (record e >>= fun _ => x) y w w' :=
  fun hends hcalm => absurd hcalm (not_calm_of_spoils hl he hends)

/-- The same ending of a program. -/
inductive Endings (M : Matching) (n : Nat) : Ending → Ending → Prop
  | error {d d'} : d.title = d'.title → d.details = d'.details → Endings M n (.error d) (.error d')
  | value {o o'} : Option.Rel (M.Twins n) o o' → Endings M n (.ok o) (.ok o')

theorem Meets.prepare {source : Source} {g : Except Diagnostic Node → Eval α} {g' : Except Diagnostic Node → Eval β}
    (hw : M.Worlds w w') (h : ∀ p, M.Meets C R (g p) (g' p) w w') :
    M.Meets C R (prepare source >>= g) (prepare source >>= g') w w' := by
  unfold Eval.prepare
  split
  · exact h _
  · exact .fault hw _
  · split
    · exact h _
    · exact h _
    · exact .fault hw _
    · exact fun he => absurd rfl (he w)

theorem frames_program (M : Matching) (name : String) : M.Frames (programFrame name) (programFrame name) :=
  ⟨.cons M.global .nil, rfl⟩

theorem Meets.world {g : World → Eval α} {g' : World → Eval β} (h : M.Meets C R (g w) (g' w') w w') :
    M.Meets C R (get >>= g) (get >>= g') w w' := h

def Shared (M : Matching) (_ : Nat) (m m' : LoadedModule) : Prop := ∃ n, M.Modules n m m'

namespace Loaders

variable {l l' : Loader LoadedModule}

variable (h : M.Loaders n l l') (path : String)
include h

theorem get? : Option.Rel (M.Modules n) (l.get? path) (l'.get? path) := by
  unfold Loader.get?
  have hc := h.cache
  generalize l.cache = cache at hc
  generalize l'.cache = cache' at hc
  induction hc with
  | nil => exact .none
  | cons he _ ih =>
    rw [Scope.lookup_entry, Scope.lookup_entry, he.1]
    split
    · exact .some he.2
    · exact ih

theorem isLoading : l.isLoading path = l'.isLoading path := by
  rw [Loader.isLoading, Loader.isLoading, h.loading]

theorem beginLoading : M.Loaders n (l.beginLoading path) (l'.beginLoading path) :=
  ⟨congrArg (· ++ [path]) h.loading, h.cache⟩

theorem endLoading : M.Loaders n (l.endLoading path) (l'.endLoading path) :=
  ⟨congrArg (List.erase · path) h.loading, h.cache⟩

theorem remember (hm : M.Modules n m m') : M.Loaders n (l.remember path m) (l'.remember path m') :=
  ⟨h.loading, .cons ⟨rfl, hm⟩ (rel_filter (fun e e' he => by dsimp only; rw [he.1]) h.cache)⟩

end Loaders

theorem Meets.loader {g : Loader LoadedModule → Eval α} {g' : Loader LoadedModule → Eval β} (hw : M.Worlds w w')
    (h : ∀ l l', M.Loaders w.scopeCount l l' → M.Meets C R (g l) (g' l') w w') :
    M.Meets C R (loader >>= g) (loader >>= g') w w' :=
  h _ _ hw.loader

theorem Meets.modifyLoader {f f' : Loader LoadedModule → Loader LoadedModule} {g : Unit → Eval α}
    {g' : Unit → Eval β}
    (h : M.Meets C R (g ()) (g' ()) { w with loader := f w.loader } { w' with loader := f' w'.loader }) :
    M.Meets C R (modifyLoader f >>= g) (modifyLoader f' >>= g') w w' := h

theorem Meets.newScope {g : Nat → Eval α} {g' : Nat → Eval β}
    (h : M.Meets C R (g w.scopeCount) (g' w'.scopeCount) w.newScope w'.newScope) :
    M.Meets C R (newScope >>= g) (newScope >>= g') w w' := h

/-- The same report, or the same module. -/
inductive Results (M : Matching) (n : Nat) : Except String LoadedModule → Except String LoadedModule → Prop
  | error (report : String) : Results M n (.error report) (.error report)
  | ok {m m' : LoadedModule} : M.Shared n m m' → Results M n (.ok m) (.ok m')

theorem askingFile_eq (hf : M.Frames frame frame') : askingFile frame = askingFile frame' := by
  have hn := hf.names
  unfold askingFile
  cases hl : frame.levels with
  | nil =>
    cases hl' : frame'.levels with
    | nil => rfl
    | cons => rw [hl, hl'] at hn; cases hn
  | cons level levels =>
    cases hl' : frame'.levels with
    | nil => rw [hl, hl'] at hn; cases hn
    | cons level' levels' =>
      rw [hl, hl', map_cons, map_cons] at hn
      dsimp only
      rw [(List.cons.inj hn).1]

section

variable (h : EvaluatorMeets M ev ev') (hw : M.Worlds w w')
include h hw

theorem runTree_meets {tree tree' : Node} (ht : tree.Alike AnyPlace tree') (hf : M.Frames frame frame') :
    M.Meets M.Calm M.Endings (runTree ev tree frame) (runTree ev' tree' frame') w w' := by
  refine Meets.tryCatch ((h ht hf hw).bind fun _ _ _ _ _ hv hr => .pure hv (.value (.some hr))) (fun s => ?_) rfl
    (fun _ => rfl) fun s s' v v' _ hv hs => ?_
  · split <;> infer_instance
  · cases hs with
    | error ht hd => exact .pure hv (.error ht hd)
    | give | cut | skip => exact .pure hv (.value .none)
    | _ => exact .throw hv (by constructor)

theorem runText_meets (source : Source) :
    M.Meets M.Calm M.Endings (runText ev source) (runText ev' source) w w' := by
  refine .prepare hw fun p => ?_
  cases p with
  | error d => exact .pure hw (.error rfl rfl)
  | ok tree => exact runTree_meets h hw (.refl tree) (M.frames_program source.name)

theorem callRun_meets (hr : M.Twins w.size r r') (c c' : Call) : M.Meets M.Calm M.Twins (Call.run ev c r)
    (Call.run ev' c' r') w w' := by
  refine .string hw hr fun name => .lift hw _ fun shownName => .world ?_
  rw [← hw.files]
  split
  · exact .error hw _
  · refine (record_steady hw rfl).bind fun _ _ v v' _ hv _ => ?_
    refine (runText_meets h hv _).andThen (fun ending => ?_) fun ending ending' u u' _ hu he => ?_
    · cases ending <;> infer_instance
    · cases he with
      | error => exact .spoiled hu.logged (by exact trivial) _
      | value => exact .pure hu hu.null

variable [hm : Moving ev]

theorem runModule_meets (name path text : String) :
    M.Meets M.Calm M.Results (runModule ev name path text) (runModule ev' name path text) w w' := by
  refine .prepare hw fun p => ?_
  cases p with
  | error d =>
    have hv := hw.withLoader (hw.loader.endLoading path)
    exact .modifyLoader (.lift hv _ fun report => .pure hv (.error _))
  | ok tree =>
    have hi := hw.new
    have hf : M.Frames ⟨[⟨path, none⟩], [w.scopeCount, Store.globalScope]⟩
        ⟨[⟨path, none⟩], [w'.scopeCount, Store.globalScope]⟩ :=
      ⟨.cons hi.pairs (.cons M.global .nil), rfl⟩
    refine .newScope ((runTree_meets h hw.newScope (.refl tree) hf).andLasts (fun ending => ?_)
      fun ending ending' v v' hlasts hv he => ?_)
    · cases ending <;> infer_instance
    · have hlt : w.scopeCount < v.scopeCount := by
        have hnew := w.scopeCount_newScope
        have := hlasts.scopes
        omega
      have hu := hv.withLoader (hv.loader.endLoading path)
      refine .modifyLoader ?_
      cases he with
      | error => exact .spoiled hu.logged (by exact trivial) _
      | value =>
        have hm : M.Modules v.scopeCount ⟨w.scopeCount, [Store.globalScope]⟩
            ⟨w'.scopeCount, [Store.globalScope]⟩ := by
          refine ⟨.cons hi.pairs (.cons M.global .nil), fun a ha s hs => ?_⟩
          rcases mem_cons.1 hs with rfl | hs
          · exact ⟨hi.apart a ha, hlt⟩
          · rw [mem_singleton.1 hs]
            exact ⟨(M.inner a ha).2.symm, Nat.lt_of_le_of_lt (Nat.zero_le _) hlt⟩
        exact .modifyLoader ((record_steady (hu.withLoader (hu.loader.remember path hm)) rfl).bind
          fun _ _ _ _ _ ht _ => .pure ht (.ok ⟨_, hm⟩))

/-- What goes wrong with a module for good is reported, and nothing more is said. -/
theorem handled_meets (name path text : String) :
    M.Meets M.Calm M.Results (tryCatch (runModule ev name path text) (moduleFault name path))
      (tryCatch (runModule ev' name path text) (moduleFault name path)) w w' := by
  refine (runModule_meets h hw name path text).handle (fun s => ?_) rfl (fun s v hv hlost he hc r => ?_)
    fun s s' v v' _ hv hs => ?_
  · unfold moduleFault
    split <;> infer_instance
  · -- also a fault that only the first world has is logged
    have hends : Ends (runModule ev name path text w) := by
      rw [hv]
      exact ends_error.2 (by rw [hlost.2]; simp)
    have hmoves : Moves default (runModule ev name path text) := runModule_moves hm.moves name path text
    have hlasts := (hmoves w hends).lasts.log.length_le
    rw [hv] at hlasts
    rw [hlost.2] at hc
    have hcalm : M.Calm (World.record { v with loader := v.loader.endLoading path } (.failed name)) := hc
    exact absurd trivial (hcalm.record (Nat.le_trans hw.logged hlasts))
  · cases hs with
    | fault e => exact .modifyLoader (.spoiled (hv.withLoader (hv.loader.endLoading path)).logged (by exact trivial) _)
    | error ht hd => exact .throw hv (.error ht hd)
    | give hr => exact .throw hv (.give hr)
    | _ => exact .throw hv (by constructor)

theorem loadModule_meets (name path : String) (span span' : Span) :
    M.Meets M.Calm M.Shared (loadModule ev span name path frame) (loadModule ev' span' name path frame') w w' := by
  refine .loader hw fun l l' hl => ?_
  rw [hl.isLoading]
  split
  · exact .throw hw (.error rfl rfl)
  · refine .world ?_
    rw [← hw.files]
    split
    · exact .error hw _
    · refine (record_steady hw (by rfl)).bind fun _ _ v v' _ hv _ => ?_
      have hu := hv.withLoader (hv.loader.beginLoading path)
      refine .modifyLoader ((handled_meets h hu name path _).andThen (fun result => ?_)
        fun result result' t t' _ ht hr => ?_)
      · cases result <;> infer_instance
      · cases hr with
        | error report => exact .error ht _
        | ok hm => exact .pure ht hm

theorem findModule_meets (name : String) (hf : M.Frames frame frame') (span span' : Span) :
    M.Meets M.Calm M.Shared (findModule ev span name frame) (findModule ev' span' name frame') w w' := by
  refine .world ?_
  rw [← hw.files, ← askingFile_eq hf]
  split
  · exact .throw hw (.error rfl rfl)
  · next path _ =>
    refine .loader hw fun l l' hl => ?_
    have hget := hl.get? path
    generalize l.get? path = m, l'.get? path = m' at hget
    cases hget with
    | none => exact loadModule_meets h hw name path span span'
    | some hm => exact .pure hw ⟨_, hm⟩

end

theorem Shared.visible (h : M.Shared n m m') (name : String) :
    Forall₂ (fun s s' => M.scopes.pairs s s' ∧ M.hides s' name = false) (m.scope :: m.outer)
      (m'.scope :: m'.outer) := by
  obtain ⟨_, hm⟩ := h
  have hall : ∀ a ∈ M.apart, ∀ s ∈ m.scope :: m.outer, s ≠ a.scope := fun a ha s hs => (hm.apart a ha s hs).1
  have hs := hm.scopes
  generalize m.scope :: m.outer = scopes, m'.scope :: m'.outer = scopes' at hs hall ⊢
  induction hs with
  | nil => exact .nil
  | cons hs _ ih =>
    refine .cons ⟨hs, hides_eq_false fun a ha heq => ?_⟩ (ih fun a ha s hs => hall a ha s (mem_cons_of_mem _ hs))
    exact absurd ((M.scopes.unique hs (M.inner a ha).1).2 heq.symm) (hall a ha _ mem_cons_self)

/-- Entries of the same names, for what stands for each other. -/
abbrev Entries (M : Matching) (n : Nat) : List Entry → List Entry → Prop :=
  Forall₂ (Scope.EntryAlike (M.Twins n))

theorem exported_alike (hw : M.Worlds w w') (hm : M.Shared n m m') :
    M.Entries w.size ((w.scope m.scope).exported (m.outer.map w.scope))
      ((w'.scope m'.scope).exported (m'.outer.map w'.scope)) := by
  have hlookup (name : String) := hw.lookupIn (hm.visible name)
  have hscope : Scope.Alike (M.Twins w.size) (w.scope m.scope) (w'.scope m'.scope) := by
    have hnone (name : String) : M.hides m'.scope name = false := by
      cases hm.visible name with
      | cons hs _ => exact hs.2
    cases hm.visible "" with
    | cons hs _ =>
      have halike := hw.scopes _ _ hs.1
      rwa [Scope.without_of_none hnone] at halike
  unfold Scope.exported
  rw [← hscope.exports]
  split
  · next hexports =>
    refine rel_filter (fun e e' he => ?_) hscope.bindings
    dsimp only
    rw [Scope.isExported, Scope.isExported, ← hscope.exports, hexports, he.1]
  · next names hexports =>
    clear hexports
    induction names with
    | nil => exact .nil
    | cons name names ih =>
      have hname := hlookup name
      rw [map_cons, map_cons] at hname
      rw [filterMap_cons, filterMap_cons]
      generalize Scope.lookup name _ = b at hname ⊢
      generalize Scope.lookup name _ = b' at hname ⊢
      cases hname with
      | none => exact ih
      | some hb => exact .cons ⟨rfl, .some hb⟩ ih

theorem bindShared_steady (hw : M.Worlds w w') (hf : M.Frames frame frame')
    (hn : M.Binds frame name) {b b' : Option Binding} (hb : Option.Rel (Binding.Alike (M.Twins w.size)) b b') :
    M.Steady Same (bindShared frame name b) (bindShared frame' name b') w w' := by
  cases hb with
  | none => exact .pure hw rfl
  | some hb => exact bind_steady hw hf hn hb

variable {l l' : List Entry}

theorem lookup_entries (h : M.Entries n l l') (name : String) :
    Option.Rel (Option.Rel (Binding.Alike (M.Twins n))) (l.lookup name) (l'.lookup name) := by
  induction h with
  | nil => exact .none
  | cons he _ ih =>
    rw [Scope.lookup_entry, Scope.lookup_entry, he.1]
    split
    · exact .some he.2
    · exact ih

theorem Entries.mono {m : Nat} (h : M.Entries n l l') (hn : n ≤ m) : M.Entries m l l' := by
  refine h.imp fun e e' he => ⟨he.1, ?_⟩
  obtain ⟨_, b⟩ := e
  obtain ⟨_, b'⟩ := e'
  cases he.2 with
  | none => exact .none
  | some hb => exact .some (hb.mono fun _ _ hr => hr.mono hn)

section

variable (hw : M.Worlds w w') (hf : M.Frames frame frame') (hn : ∀ name, M.Binds frame name)
  (hl : M.Entries w.size l l')
include hw hf hn hl

theorem bindItems_steady {name' : String} (hname : name = name')
    {items items' : List Item} (hi : Forall₂ (ItemAlike AnyPlace) items items') :
    M.Steady Same (bindItems name frame l items) (bindItems name' frame' l' items') w w' := by
  subst hname
  induction hi generalizing w w' with
  | nil => exact .pure hw rfl
  | @cons item item' _ _ hitem _ ih =>
    obtain ⟨item, rename⟩ := item
    obtain ⟨item', rename'⟩ := item'
    obtain ⟨ht, hr⟩ : item.Alike AnyPlace item' ∧ Option.Rel (Token.Alike AnyPlace) rename rename' := hitem
    have htext : (rename.getD item).text = (rename'.getD item').text := by
      cases hr with
      | none => exact ht.text_eq
      | some hr => exact hr.text_eq
    unfold bindItems
    rw [← ht.text_eq, ← htext]
    have hentry := lookup_entries hl item.text
    generalize l.lookup item.text = b, l'.lookup item.text = b' at hentry
    cases hentry with
    | none => exact .error hw _
    | some hb =>
      exact (bindShared_steady hw hf (hn _) hb).bind fun _ _ v v' hm hv _ => ih hv (hl.mono hm)

theorem forM_steady : M.Steady Same (l.forM fun (name, value) => bindShared frame name value)
      (l'.forM fun (name, value) => bindShared frame' name value) w w' := by
  induction l generalizing w w' l' with
  | nil =>
    cases hl
    exact .pure hw rfl
  | cons e l ih =>
    cases hl with
    | @cons _ e' _ l' he hl =>
      obtain ⟨name, b⟩ := e
      obtain ⟨name', b'⟩ := e'
      obtain ⟨rfl, hb⟩ := he
      exact (bindShared_steady hw hf (hn _) hb).bind fun _ _ v v' hm hv _ => ih hv (Entries.mono hl hm)

end

/-- The same names are brought in, if any name may be bound in the frame. -/
theorem bring_meets (h : EvaluatorMeets M ev ev') [Moving ev] (hf : M.Frames frame frame') (hw : M.Worlds w w')
    (hn : ∀ name, M.Binds frame name) {path path' : Token} (hp : path.Alike AnyPlace path')
    {items items' : Option (List Item)} (hi : Option.Rel (Forall₂ (ItemAlike AnyPlace)) items items')
    (span span' : Span) :
    M.Meets M.Calm M.Twins (bring ev span path items frame) (bring ev' span' path' items' frame') w w' := by
  unfold bring
  rw [← hp.text_eq]
  refine (record_steady hw rfl).bind fun _ _ v v' _ hv _ => ?_
  refine (findModule_meets h hv path.text hf span span').andThen (fun m => ?_) fun m m' u u' _ hu hm => ?_
  · infer_instance
  · have hshared := exported_alike hu hm
    refine Steady.bind (x := exportsOf m) (y := exportsOf m') (R := fun n => M.Entries n)
      (fun _ _ => .ok (Nat.le_refl _) hu hshared) fun l l' t t' _ ht hl => ?_
    refine Steady.bind (R := Same) ?_ fun _ _ _ _ _ hs _ => .pure hs hs.null
    cases hi with
    | none => exact forM_steady ht hf hn hl
    | some hi => exact bindItems_steady ht hf hn hl rfl hi

end Matching

end Utterance

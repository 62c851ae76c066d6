import Mathlib.Data.List.Chain
import Utterance.Proofs.FunctionFrames
import Utterance.Proofs.KeepingEvaluate

/-!
# Chains of scopes and of contexts end

A new scope stands in those of the code that makes it, of a program or of a function, and a function is moved into the
frame of each call that it is passed to. The frame of a call is a context, with that frame as its parent. Still a
scope only ever stands in older ones, out to the global one (`World.Chained`), and a context only ever has an older
parent (`World.Descends`), wherever code runs in a session (`chains_end`); so the report of an error has one line for
each of finitely many contexts.
-/

namespace Utterance

open Eval World List Session

/-- Code in a frame runs in a world, in some program of a session: at the top of the program, after changes that it
made, in a call that it enters, in a new scope, or in a script. -/
inductive Session.Running (files : Files) (input : String) : Frame → World → Prop
  | program {w} (name : String) : Between files input w → Running files input (programFrame name) w
  | changed {frame w v} : Running files input frame w → Reaches frame w v → Running files input frame v
  | entered {frame b inner args w v} : Running files input frame w → Enters frame b inner args w v →
    Running files input inner v
  | scope {frame inner w} : Running files input frame w → Known frame w inner →
    Running files input (w.inside inner) w.newScope
  | script {frame w} (name : String) : Running files input frame w → Running files input (programFrame name) w

variable {files : Files} {input : String} {frame : Frame} {scopes : List Nat} {w v : World}

/-- Scopes of which each stands in an older one, out to the global one. -/
structure World.Chained (w : World) (scopes : List Nat) : Prop where
  hasScopes : w.HasScopes scopes
  older : scopes.Pairwise (· > ·)
  ends : scopes.getLast? = some Store.globalScope

/-- The scope that a context was made with, its innermost one. -/
def Frame.own (context : Frame) : Nat := context.scopes.headD Store.globalScope

/-- The parent of a context has the levels around it, and was made before it. -/
structure Frame.Parent (context parent : Frame) : Prop where
  levels : ∃ level, context.levels = level :: parent.levels
  older : context.own > parent.own

/-- What parent links lead to from a context, the context first: it ends with one that has no parent, and the scopes
of all are chained. -/
structure World.Descends (w : World) (contexts : List Frame) : Prop where
  parents : contexts.IsChain Frame.Parent
  last : ∀ c ∈ contexts.getLast?, ∃ level, c.levels = [level]
  chained : ∀ c ∈ contexts, w.Chained c.scopes

theorem World.Chained.grows (h : w.Chained scopes) (hg : w.scopeCount ≤ v.scopeCount) : v.Chained scopes :=
  ⟨fun n hn => Nat.lt_of_lt_of_le (h.hasScopes n hn) hg, h.older, h.ends⟩

theorem World.Chained.cons (h : w.Chained scopes) : w.newScope.Chained (w.scopeCount :: scopes) :=
  ⟨h.hasScopes.cons, pairwise_cons.2 ⟨h.hasScopes, h.older⟩, by rw [getLast?_cons, h.ends]; rfl⟩

theorem World.Chained.own_mem {context : Frame} (h : w.Chained context.scopes) : context.own ∈ context.scopes := by
  have hends := h.ends
  unfold Frame.own
  cases hs : context.scopes with
  | nil =>
    rw [hs] at hends
    cases hends
  | cons n outer => exact mem_cons_self

/-- What goes down from below `n` has at most `n` steps. -/
theorem length_le_of_older {chain : List Nat} (h : chain.Pairwise (· > ·)) {n : Nat} (hn : ∀ m ∈ chain, m < n) :
    chain.length ≤ n := by
  induction chain generalizing n with
  | nil => exact Nat.zero_le n
  | cons m chain ih =>
    obtain ⟨hm, h⟩ := pairwise_cons.1 h
    exact Nat.lt_of_le_of_lt (ih h hm) (hn m mem_cons_self)

namespace World.Descends

variable {context : Frame} {contexts : List Frame}

theorem grows (h : w.Descends contexts) (hg : w.scopeCount ≤ v.scopeCount) : v.Descends contexts :=
  ⟨h.parents, h.last, fun c hc => (h.chained c hc).grows hg⟩

theorem own_lt (h : w.Descends contexts) {c : Frame} (hc : c ∈ contexts) : c.own < w.scopeCount :=
  (h.chained c hc).hasScopes _ (h.chained c hc).own_mem

/-- Contexts are made one after the other, each with a scope of its own. -/
theorem length_le (h : w.Descends contexts) : contexts.length ≤ w.scopeCount := by
  have holder : (contexts.map Frame.own).Pairwise (· > ·) :=
    isChain_iff_pairwise.1 ((isChain_map _).2 (h.parents.imp fun _ _ hp => hp.older))
  have hlt : ∀ n ∈ contexts.map Frame.own, n < w.scopeCount := by
    intro n hn
    obtain ⟨c, hc, rfl⟩ := mem_map.1 hn
    exact h.own_lt hc
  simpa using length_le_of_older holder hlt

theorem heads (h : w.Descends (context :: contexts)) :
    (context :: contexts).map (·.levels.head?) = context.levels.map some := by
  obtain ⟨hparents, hlast, -⟩ := h
  induction contexts generalizing context with
  | nil =>
    obtain ⟨level, hl⟩ := hlast context rfl
    rw [map_singleton, hl]
    rfl
  | cons parent contexts ih =>
    obtain ⟨⟨⟨level, hl⟩, -⟩, hparents⟩ := isChain_cons_cons.1 hparents
    rw [map_cons, ih hparents (by simpa using hlast), hl]
    rfl

/-- The frame of a program has no parent. -/
theorem program (hw : Store.globalScope < w.scopeCount) (name : String) : w.Descends [programFrame name] where
  parents := .singleton _
  last c hc := ⟨⟨name, none⟩, by cases hc; rfl⟩
  chained c hc := by
    cases mem_singleton.1 hc
    exact ⟨fun _ hn => mem_singleton.1 hn ▸ hw, pairwise_singleton _ _, rfl⟩

/-- Code in a new scope has the same parents. -/
theorem inside (h : w.Descends (context :: contexts)) : w.newScope.Descends (w.inside context :: contexts) := by
  have hg : w.scopeCount ≤ w.newScope.scopeCount := by simp
  refine ⟨?_, ?_, fun c hc => ?_⟩
  · cases contexts with
    | nil => exact .singleton _
    | cons parent contexts =>
      obtain ⟨hp, hparents⟩ := isChain_cons_cons.1 h.parents
      have holder := Nat.lt_trans hp.older (h.own_lt mem_cons_self)
      exact isChain_cons_cons.2 ⟨⟨hp.levels, holder⟩, hparents⟩
  · cases contexts with
    | nil =>
      rintro c ⟨⟩
      exact h.last context rfl
    | cons parent contexts => exact h.last
  · rcases mem_cons.1 hc with rfl | hc
    · exact (h.chained context mem_cons_self).cons
    · exact (h.chained c (mem_cons_of_mem _ hc)).grows hg

/-- The parent of a call is the context where the function was seen. -/
theorem call (level : Level) (h : w.Descends (context :: contexts)) :
    w.newScope.Descends (⟨level :: context.levels, w.scopeCount :: context.scopes⟩ :: context :: contexts) := by
  have hg : w.scopeCount ≤ w.newScope.scopeCount := by simp
  refine ⟨isChain_cons_cons.2 ⟨⟨⟨level, rfl⟩, h.own_lt mem_cons_self⟩, h.parents⟩, h.last, fun c hc => ?_⟩
  rcases mem_cons.1 hc with rfl | hc
  · exact (h.chained context mem_cons_self).cons
  · exact (h.chained c hc).grows hg

end World.Descends

/-- A context from which parent links lead to an end. -/
def World.Rooted (w : World) (context : Frame) : Prop := ∃ parents, w.Descends (context :: parents)

theorem lasting_rooted : Lasting Rooted where
  grows hg h := h.imp fun _ h => h.grows hg
  inside h := h.imp fun _ h => h.inside
  call level h := h.elim fun _ h => ⟨_, h.call level⟩

theorem sees_between (h : Session.Between files input w) : w.Sees True Rooted := by
  have ran {w : World} {name text : String} {r : Outcome Ending} (hr : run name text w = r) (he : Ends r)
      (hw : w.Sees True Rooted) : (after r).Sees True Rooted :=
    hw.reaches lasting_rooted (hw.program name) ((runText_moves evaluate_moves ⟨name, text⟩).reaches hr he)
  induction h with
  | start =>
    refine ⟨fun name => ⟨[], .program (w := start files input) Nat.zero_lt_one name⟩,
      fun {q _} _ hf => ?_, fun _ => nofun, fun _ => nofun⟩
    rw [show ((start files input).cell q).frame = none from frame_initial q] at hf
    cases hf
  | run _ hr ih => exact ran hr (ends_ok _ _) ih
  | fault _ hr ih => exact ran hr (ends_error.2 nofun) ih

theorem Session.Running.sees (h : Running files input frame w) : w.Sees True Rooted ∧ w.Rooted frame := by
  induction h with
  | program name hw => exact ⟨sees_between hw, (sees_between hw).program name⟩
  | changed _ hr ih => exact ⟨ih.1.reaches lasting_rooted ih.2 hr, lasting_rooted.grows hr.grows.scopes ih.2⟩
  | entered _ he ih => exact ih.1.enters lasting_rooted ih.2 he
  | @scope frame inner w _ hk ih =>
    have hr : Reaches frame w w.newScope := .scope hk (.refl _ _)
    exact ⟨ih.1.reaches lasting_rooted ih.2 hr, lasting_rooted.inside (ih.1.known ih.2 hk)⟩
  | script name _ ih => exact ⟨ih.1, ih.1.program name⟩

/-- What is asked of reports in view of the world at the end, where calls on the way are logged: the levels around are
those of a context there, or there are none. -/
def Contract.contexts (v : World) (hv : v.Sees True Rooted) : Contract :=
  { Contract.loose with
    calm := fun log => log <:+ v.log
    levels := fun levels => levels = [] ∨ ∃ context, v.Rooted context ∧ context.levels = levels
    report := fun d => ∀ levels, d.kind = .runtime levels →
      levels = [] ∨ ∃ context, v.Rooted context ∧ context.levels = levels
    calm_of_cons := (suffix_cons _ _).trans
    contained_of_begun := False.elim
    contained_of_ran := False.elim
    levels_nil := .inl rfl
    levels_top := fun name => .inr ⟨_, hv.program name, rfl⟩
    levels_call := fun _ hcalm _ _ => .inr ⟨_, hv.called trivial (hcalm.subset mem_cons_self), rfl⟩
    report_placed := fun _ _ hl _ hk => Diagnostic.Kind.runtime.inj hk ▸ hl
    report_operand := fun _ _ _ hl _ hk => Diagnostic.Kind.runtime.inj hk ▸ hl
    report_missing := fun _ _ _ _ _ hk => nomatch hk
    report_circular := fun _ _ _ _ _ hk => nomatch hk }

/-- The levels around an error are those of a context of the world where evaluation ends. -/
theorem rooted_of_error (h : Session.Running files input frame w) {node : Node} {d : Diagnostic}
    (he : evaluate node frame w = .error (.error d) v) {levels : List Level} (hk : d.kind = .runtime levels) :
    levels = [] ∨ ∃ context, v.Rooted context ∧ context.levels = levels := by
  have hends : Ends (evaluate node frame w) := by rw [he]; exact ends_error.2 nofun
  have hr : Reaches frame w v := (evaluate_moves node frame).reaches he (ends_error.2 nofun)
  obtain ⟨hsees, hrooted⟩ := h.sees
  have hv := hsees.reaches lasting_rooted hrooted hr
  have later {context : Frame} (h : w.Rooted context) : v.Rooted context := lasting_rooted.grows hr.grows.scopes h
  have keeps : (Contract.contexts v hv).Keeps True false (evaluate node frame) :=
    Contract.evaluate_keeps _ (fun _ => .inr ⟨frame, later hrooted, rfl⟩) fun _ => False.elim
  have holds : (Contract.contexts v hv).Holds w.loader.loading w :=
    ⟨rfl, trivial, fun r => ⟨fun context hf => .inr ⟨context, later (hsees.cells (.inl trivial) hf), rfl⟩, False.elim⟩⟩
  have hended := (keeps w.loader.loading w hends (by rw [he]; exact suffix_rfl)).2 trivial holds
  rw [he] at hended
  exact hended.1 levels hk

/-- The line of a traceback for a level, with the place where it was left. -/
def Level.line (level : Level) (p : Position) : String :=
  "  File " ++ p.source.name ++ ", line " ++ toString (p.ln + 1) ++ ", in " ++ level.name ++ "\n"

/-- A traceback has one line for each level, the outermost first: the place of the innermost one is that of the error,
of any other one the place from which the level inside it was entered. It fails only where such a place is not
known. -/
theorem traceback_eq_ok_iff {levels : List Level} {place : Option Position} {text : String} :
    Diagnostic.traceback levels place = .ok text ↔
      ∃ places : List Position, places.map some = (place :: levels.map Level.entry).take levels.length ∧
        text = String.join (List.zipWith Level.line levels places).reverse := by
  induction levels generalizing place text with
  | nil =>
    constructor
    · intro h
      exact ⟨[], rfl, (Except.ok.inj h).symm⟩
    · rintro ⟨places, -, rfl⟩
      rfl
  | cons level outer ih =>
    cases place with
    | none =>
      refine ⟨nofun, ?_⟩
      rintro ⟨_ | ⟨p, places⟩, hp, -⟩ <;> cases hp
    | some p =>
      have hstep : Diagnostic.traceback (level :: outer) (some p) =
          (Diagnostic.traceback outer level.entry).map (· ++ level.line p) := by
        rw [Diagnostic.traceback]
        cases Diagnostic.traceback outer level.entry with
        | error => rfl
        | ok before => exact congrArg Except.ok (by simp only [Level.line, Diagnostic.lineNumber, String.append_assoc])
      have hjoin (places : List Position) : String.join (List.zipWith Level.line (level :: outer)
        (p :: places)).reverse =
          String.join (List.zipWith Level.line outer places).reverse ++ level.line p := by
        simp [String.join_append]
      rw [hstep]
      constructor
      · intro h
        cases ht : Diagnostic.traceback outer level.entry with
        | error =>
          rw [ht] at h
          cases h
        | ok before =>
          rw [ht] at h
          obtain ⟨places, hp, rfl⟩ := ih.1 ht
          exact ⟨p :: places, congrArg (some p :: ·) hp, (Except.ok.inj h).symm.trans (hjoin places).symm⟩
      · rintro ⟨_ | ⟨q, places⟩, hp, rfl⟩
        · cases hp
        · injection hp with hq hp
          obtain rfl := Option.some.inj hq
          rw [ih.2 ⟨places, hp, rfl⟩, hjoin]
          rfl

/-- Wherever code runs in a session, parent links lead from its context, from any that a value was seen in, functions
with them, and from that of any call so far to an end: each parent was made before, and the scopes of each context,
and of any module, are such that each stands in an older one, out to the global one. So there are no more contexts and
scopes in a chain than scopes in all. Evaluation goes on so, and an error that it ends with is traced back through the
contexts of such a chain, one line each. -/
theorem chains_end (h : Session.Running files input frame w) :
    (∀ context, (context = frame ∨ (∃ q, (w.cell q).frame = some context) ∨
        ∃ b args, .called b context args ∈ w.log) →
      (∃ parents, w.Descends (context :: parents)) ∧ context.levels.length ≤ w.scopeCount ∧
        context.scopes.length ≤ w.scopeCount) ∧
    (∀ e ∈ w.loader.cache, w.Chained (e.2.scope :: e.2.outer) ∧ e.2.outer.length < w.scopeCount) ∧
    (∀ node, Ends (evaluate node frame w) → Session.Running files input frame (after (evaluate node frame w))) ∧
    ∀ node d v levels, evaluate node frame w = .error (.error d) v → d.kind = .runtime levels →
      (∃ contexts, v.Descends contexts ∧ contexts.map (·.levels.head?) = levels.map some) ∧
      levels.length ≤ v.scopeCount ∧
      ∀ text, Diagnostic.traceback levels d.start = .ok text ↔
        ∃ places : List Position, places.map some = (d.start :: levels.map Level.entry).take levels.length ∧
          text = String.join (List.zipWith Level.line levels places).reverse := by
  have bounded {v : World} {context : Frame} (h : v.Rooted context) :
      context.levels.length ≤ v.scopeCount ∧ context.scopes.length ≤ v.scopeCount := by
    obtain ⟨parents, hp⟩ := h
    have hc := hp.chained context mem_cons_self
    have hl := congrArg List.length hp.heads
    rw [length_map, length_map] at hl
    exact ⟨hl ▸ hp.length_le, length_le_of_older hc.older hc.hasScopes⟩
  obtain ⟨hsees, hrooted⟩ := h.sees
  refine ⟨fun context hc => ?_, fun e he => ?_, fun node he => .changed h (evaluate_moves node frame w he),
    fun node d v levels he hk => ⟨?_, ?_, fun _ => traceback_eq_ok_iff⟩⟩
  · have hr : w.Rooted context := by
      rcases hc with rfl | ⟨q, hf⟩ | ⟨b, args, hm⟩
      · exact hrooted
      · exact hsees.cells (.inl trivial) hf
      · exact hsees.called trivial hm
    exact ⟨hr, bounded hr⟩
  · obtain ⟨context, hr, hs⟩ := hsees.modules trivial e he
    obtain ⟨parents, hp⟩ := hr
    rw [hs]
    have hlen := (bounded ⟨parents, hp⟩).2
    rw [← hs] at hlen
    exact ⟨hp.chained context mem_cons_self, hlen⟩
  · rcases rooted_of_error h he hk with rfl | ⟨context, ⟨parents, hp⟩, rfl⟩
    · exact ⟨[], ⟨.nil, nofun, nofun⟩, rfl⟩
    · exact ⟨_, hp, hp.heads⟩
  · rcases rooted_of_error h he hk with rfl | ⟨context, hr, rfl⟩
    · exact Nat.zero_le _
    · exact (bounded hr).1

theorem chains_end_newScope :
    Session.Running ⟨"", [], "", []⟩ "" ⟨[⟨"main", none⟩], [1, 0]⟩ (start ⟨"", [], "", []⟩ "").newScope ∧
      ∃ parents, (start ⟨"", [], "", []⟩ "").newScope.Descends (⟨[⟨"main", none⟩], [1, 0]⟩ :: parents) := by
  have h : Session.Running ⟨"", [], "", []⟩ "" ⟨[⟨"main", none⟩], [1, 0]⟩
      (start ⟨"", [], "", []⟩ "").newScope :=
    .scope (.program "main" .start) (.inl rfl)
  exact ⟨h, ((chains_end h).1 _ (.inl rfl)).1⟩

end Utterance

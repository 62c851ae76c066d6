import Utterance.Proofs.ReachEvaluate

/-!
# Evaluation binds names in its own scope only

Entering a call changes the frames of the arguments and the innermost scope, and is logged (`Enters.entered`). From
this, everything that exists before an evaluation exists after it and is of its type, and the log only grows
(`Reaches.lasts`); and of the scopes that exist before, an evaluation changes the bindings of the innermost one alone,
unless a script was run, which binds in the global scope (`Reaches.sameScope`). A call, a comprehension and the
loading of a module work in new scopes, so that they do not even bind anything in the innermost scope around them.
-/

namespace Utterance

open Eval World List

variable {args : List Ref} {frame inner : Frame} {b : Option Builtin} {w v u w' : World} {n : Nat}

/-- What entering a call changes. -/
structure Entered (frame : Frame) (args : List Ref) (w v : World) : Prop where
  log : v.log = w.log
  out : v.out = w.out
  loader : v.loader = w.loader
  tables : v.store.tables = w.store.tables
  cellCount : v.size = w.size
  scopeCount : v.scopeCount = w.scopeCount
  cell : ∀ q, v.cell q =
    if q ∈ args ∧ q < w.size then { w.cell q with frame := some frame } else w.cell q
  scope : ∀ n, frame.scopes.head? ≠ some n → v.scope n = w.scope n

theorem Entered.refl (frame : Frame) (w : World) : Entered frame [] w w where
  log := rfl
  out := rfl
  loader := rfl
  tables := rfl
  cellCount := rfl
  scopeCount := rfl
  cell q := by simp
  scope n _ := rfl

theorem Entered.cons {r : Ref} (h : Entered frame [r] w v) (ht : Entered frame args v u) :
    Entered frame (r :: args) w u where
  log := ht.log.trans h.log
  out := ht.out.trans h.out
  loader := ht.loader.trans h.loader
  tables := ht.tables.trans h.tables
  cellCount := ht.cellCount.trans h.cellCount
  scopeCount := ht.scopeCount.trans h.scopeCount
  cell q := by
    rw [ht.cell q, h.cell q, h.cellCount]
    by_cases hr : q = r
    · by_cases hq : q < w.size <;> by_cases ha : q ∈ args <;> simp [hr ▸ hq, hr ▸ ha, hr]
    · by_cases hq : q < w.size <;> by_cases ha : q ∈ args <;> simp [hq, ha, hr]
  scope n hn := (ht.scope n hn).trans (h.scope n hn)

theorem Entered.payload (h : Entered frame args w v) (q : Ref) : (v.cell q).payload = (w.cell q).payload := by
  rw [h.cell q]
  split <;> rfl

theorem modifyCell_entered (frame : Frame) (r : Ref) (w : World) :
    Entered frame [r] w (w.modifyCell r fun c => { c with frame := some frame }) where
  log := rfl
  out := rfl
  loader := rfl
  tables := rfl
  cellCount := by simp
  scopeCount := rfl
  cell q := by
    rw [cell_modifyCell]
    by_cases hq : q = r
    · simp [hq]
    · simp [hq]
  scope n _ := rfl

theorem Entered.bind {outer : List Nat} (hs : frame.scopes = n :: outer) (h : Entered frame args w v)
    (f : Scope Binding → Scope Binding) : Entered frame args w (v.modifyScope n f) where
  log := h.log
  out := h.out
  loader := h.loader
  tables := h.tables
  cellCount := h.cellCount
  scopeCount := by rw [← h.scopeCount]; simp
  cell := h.cell
  scope m hm := by
    have hne : m ≠ n := fun e => hm (by rw [hs, e]; rfl)
    rw [scope_modifyScope_of_ne v f hne, h.scope m hm]

theorem bindArgs_entered {names : List String} (hl : names.length = args.length)
    (h : bindArgs frame names args w = .ok () v) : Entered frame args w v := by
  induction names generalizing args w with
  | nil =>
    obtain rfl : args = [] := List.eq_nil_of_length_eq_zero hl.symm
    cases h
    exact .refl _ _
  | cons name names ih =>
    obtain _ | ⟨r, args⟩ := args
    · exact absurd hl (by simp)
    · have hl' : names.length = args.length := by simpa using hl
      have hr := modifyCell_entered frame r w
      have h' : (Eval.bind frame name (.value r) >>= fun _ => bindArgs frame names args)
          (w.modifyCell r fun c => { c with frame := some frame }) = .ok () v := h
      unfold Eval.bind at h'
      split at h'
      · next n outer hs => exact (hr.bind hs _).cons (ih hl' h')
      · exact hr.cons (ih hl' h')

/-- Entering a call makes a scope, binds and reframes the arguments, and logs the call. -/
theorem Enters.entered (h : Enters frame b inner args w v) :
    ∃ u, Entered inner args w.newScope u ∧ v = u.record (.called b inner args) := by
  obtain ⟨outer, level, names, u, _, _, hl, hb, rfl⟩ := h
  exact ⟨u, bindArgs_entered hl hb, rfl⟩

theorem Enters.log (h : Enters frame b inner args w v) : v.log = [.called b inner args] ++ w.log := by
  obtain ⟨u, hu, rfl⟩ := h.entered
  simp [World.record, hu.log, World.newScope]

/-- The new scope is none of those that exist. -/
theorem Enters.head_ne (h : Enters frame b inner args w v) (hn : n < w.scopeCount) :
    inner.scopes.head? ≠ some n := by
  obtain ⟨outer, _, _, _, _, rfl, _⟩ := h
  intro e
  injection e with e
  omega

theorem World.inside_head_ne (frame : Frame) (hn : n < w.scopeCount) : (w.inside frame).scopes.head? ≠ some n := by
  intro e
  injection e with e
  omega

theorem Enters.scope (h : Enters frame b inner args w v) (hn : n < w.scopeCount) : v.scope n = w.scope n := by
  obtain ⟨u, hu, rfl⟩ := h.entered
  exact (hu.scope n (h.head_ne hn)).trans (scope_newScope w hn)

/-- Everything that exists stays, and what happened is on top of the log. -/
structure Grows (w w' : World) : Prop where
  cells : w.size ≤ w'.size
  scopes : w.scopeCount ≤ w'.scopeCount
  log : w.log <:+ w'.log

theorem Enters.grows (h : Enters frame b inner args w v) : Grows w v := by
  obtain ⟨u, hu, rfl⟩ := h.entered
  refine ⟨Nat.le_of_eq hu.cellCount.symm, Nat.le_trans ?_ (Nat.le_of_eq hu.scopeCount.symm), ?_⟩
  · simp
  · exact ⟨_, h.log.symm⟩

/-- Everything that exists stays, and every value stays of its type. -/
structure Lasts (w v : World) : Prop extends Grows w v where
  typeName : ∀ {q}, q < w.size → (v.cell q).payload.typeName = (w.cell q).payload.typeName

theorem Payload.isCallable_eq (p : Payload) :
    p.isCallable = (p.typeName == "Function" || p.typeName == "BuiltInFunction") := by
  cases p <;> rfl

namespace Lasts

theorem callable (h : Lasts w v) {q : Ref} (hq : (w.cell q).payload.isCallable = true) :
    (v.cell q).payload.isCallable = true := by
  rwa [Payload.isCallable_eq, h.typeName (w.lt_of_isCallable hq), ← Payload.isCallable_eq]

theorem of_cells (hl : w.log <:+ v.log) (hs : w.scopeCount ≤ v.scopeCount)
    (hc : v.store.cells = w.store.cells) : Lasts w v :=
  ⟨⟨Nat.le_of_eq (congrArg Array.size hc.symm), hs, hl⟩, fun {q} _ => by rw [World.cell, Store.cell, hc]; rfl⟩

theorem refl (w : World) : Lasts w w := of_cells suffix_rfl (Nat.le_refl _) rfl

theorem trans (h : Lasts w v) (h' : Lasts v u) : Lasts w u :=
  ⟨⟨Nat.le_trans h.cells h'.cells, Nat.le_trans h.scopes h'.scopes, h.log.trans h'.log⟩,
    fun hq => (h'.typeName (Nat.lt_of_lt_of_le hq h.cells)).trans (h.typeName hq)⟩

theorem alloc (w : World) (c : Cell) : Lasts w (w.alloc c) := by
  refine ⟨⟨by simp, Nat.le_refl _, suffix_rfl⟩, fun {q} hq => ?_⟩
  rw [cell_alloc, if_neg (Nat.ne_of_lt hq)]

theorem modifyCell (w : World) (r : Ref) {f : Cell → Cell}
    (hf : ∀ c, (f c).payload.typeName = c.payload.typeName) : Lasts w (w.modifyCell r f) := by
  refine ⟨⟨by simp, Nat.le_refl _, suffix_rfl⟩, fun {q} _ => ?_⟩
  rw [cell_modifyCell]
  split
  · exact hf _
  · rfl

theorem mapElements (w : World) (r : Ref) (f : Array Ref → Array Ref) :
    Lasts w (w.modifyCell r (Cell.mapElements f)) := by
  refine modifyCell w r fun c => ?_
  unfold Cell.mapElements
  split
  · next hp => rw [hp]; rfl
  · rfl

end Lasts

theorem Enters.lasts (h : Enters frame b inner args w v) : Lasts w v := by
  refine ⟨h.grows, fun {q} _ => ?_⟩
  obtain ⟨u, hu, rfl⟩ := h.entered
  exact congrArg Payload.typeName (hu.payload q)

theorem Reaches.lasts (h : Reaches frame w v) : Lasts w v := by
  induction h with
  | refl => exact .refl _
  | trans _ _ ih ih' => exact ih.trans ih'
  | alloc frame w c _ => exact .alloc w c
  | place frame w r span | reframe frame w r _ => exact .modifyCell w r fun _ => rfl
  | newTable | stream | loader => exact .of_cells suffix_rfl (Nat.le_refl _) rfl
  | bind => exact .of_cells suffix_rfl (by simp) rfl
  | sharing | shared => exact .of_cells (suffix_cons _ _) (by simp) rfl
  | noted => exact .of_cells (suffix_cons _ _) (Nat.le_refl _) rfl
  | @scope _ _ w _ _ _ ih =>
    have hnew : Lasts w w.newScope := .of_cells suffix_rfl (by simp) rfl
    exact hnew.trans ih
  | call he _ ih | run _ he _ ih => exact he.lasts.trans ih
  | elements f _ he => exact he.lasts.trans (.mapElements _ _ f)
  | erase key he _ => exact he.lasts.trans (.of_cells suffix_rfl (Nat.le_refl _) rfl)

theorem Reaches.grows (h : Reaches frame w w') : Grows w w' := h.lasts.toGrows

theorem Eval.BuiltinReaches.lasts {b : Builtin} (h : Eval.BuiltinReaches frame b args w v) : Lasts w v := by
  cases h with
  | plain h | run _ _ h => exact h.lasts
  | elements f => exact .mapElements _ _ f
  | erase => exact .of_cells suffix_rfl (Nat.le_refl _) rfl

def RanScript (w w' : World) : Prop :=
  ∃ happened frame args, w'.log = happened ++ w.log ∧ .called (some .run) frame args ∈ happened

theorem RanScript.of_left (h : RanScript w v) (hg : Grows v u) : RanScript w u := by
  obtain ⟨happened, frame, args, hv, hm⟩ := h
  obtain ⟨later, hu⟩ := hg.log
  exact ⟨later ++ happened, frame, args, by rw [← hu, hv, append_assoc], mem_append_right _ hm⟩

theorem RanScript.of_right (h : RanScript v u) (hg : Grows w v) : RanScript w u := by
  obtain ⟨happened, frame, args, hu, hm⟩ := h
  obtain ⟨before, hv⟩ := hg.log
  exact ⟨happened ++ before, frame, args, by rw [hu, ← hv, append_assoc], mem_append_left _ hm⟩

/-- A scope is as before; the global one may differ if a script was run. -/
def SameScope (n : Nat) (w w' : World) : Prop :=
  w'.scope n = w.scope n ∨ n = Store.globalScope ∧ RanScript w w'

/-- A scope has the same bindings as before; the global one may differ if a script was run. -/
def SameBindings (n : Nat) (w w' : World) : Prop :=
  (w'.scope n).bindings = (w.scope n).bindings ∨ n = Store.globalScope ∧ RanScript w w'

theorem SameScope.sameBindings (h : SameScope n w w') : SameBindings n w w' :=
  h.imp_left (congrArg Scope.bindings)

theorem SameScope.trans (h : SameScope n w v) (h' : SameScope n v u) (hg : Grows w v) (hg' : Grows v u) :
    SameScope n w u := by
  rcases h with h | ⟨hn, hr⟩
  · rcases h' with h' | ⟨hn, hr⟩
    · exact .inl (h'.trans h)
    · exact .inr ⟨hn, hr.of_right hg⟩
  · exact .inr ⟨hn, hr.of_left hg'⟩

section

variable (h : Reaches frame w w') (hn : n < w.scopeCount) (hs : frame.scopes.head? ≠ some n)
include h hn hs

/-- Of the scopes that exist, code changes its innermost one only. -/
theorem Reaches.sameScope : SameScope n w w' := by
  induction h with
  | refl | alloc | place | reframe | newTable | stream | loader | noted => exact .inl rfl
  | trans h h' ih ih' =>
    exact (ih hn hs).trans (ih' (Nat.lt_of_lt_of_le hn h.grows.scopes) hs) h.grows h'.grows
  | bind w _ _ h | sharing w h | shared w _ h =>
    exact .inl (scope_modifyScope_of_ne w _ fun e => hs (by rw [h, e]; rfl))
  | @scope _ inner w _ _ _ ih =>
    have hv := ih (by rw [scopeCount_newScope]; omega) (w.inside_head_ne inner hn)
    rwa [SameScope, scope_newScope w hn] at hv
  | call he h ih =>
    exact SameScope.trans (.inl (he.scope hn)) (ih (Nat.lt_of_lt_of_le hn he.grows.scopes) (he.head_ne hn)) he.grows
      h.grows
  | elements f _ he | erase key he _ => exact .inl (he.scope hn)
  | @run _ inner args _ _ _ _ he h ih =>
    by_cases hg : n = Store.globalScope
    · obtain ⟨later, hu⟩ := h.grows.log
      refine .inr ⟨hg, later ++ [.called (some .run) inner args], inner, args, ?_, by simp⟩
      rw [← hu, he.log, append_assoc]
    · refine SameScope.trans (.inl (he.scope hn)) (ih (Nat.lt_of_lt_of_le hn he.grows.scopes) fun e => hg ?_)
        he.grows h.grows
      injection e with e
      exact e.symm

/-- Of the scopes that exist, code changes the bindings of its innermost one only. -/
theorem Reaches.sameBindings : SameBindings n w w' :=
  (h.sameScope hn hs).sameBindings

end

/-- Evaluation of a node binds names in the innermost scope of its frame only: the bindings of every other scope that
exists are the same afterwards, however it ends, unless it is the global one and a script was run on the way. Neither
a call nor a comprehension nor the loading of a module binds anything in any scope that exists. -/
theorem evaluate_sameBindings (node : Node) (frame : Frame) (w : World) (n : Nat) (hn : n < w.scopeCount) :
    (Ends (evaluate node frame w) → frame.scopes.head? ≠ some n → SameBindings n w (after (evaluate node frame w))) ∧
    (∀ f args, Ends (call evaluate f args w) → SameBindings n w (after (call evaluate f args w))) ∧
    (∀ span expression clauses, Ends (evaluate (.comprehension span expression clauses) frame w) →
      SameBindings n w (after (evaluate (.comprehension span expression clauses) frame w))) ∧
    ∀ span name, Ends (findModule evaluate span name frame w) →
      SameBindings n w (after (findModule evaluate span name frame w)) := by
  have outside : (⟨[], []⟩ : Frame).scopes.head? ≠ some n := nofun
  refine ⟨fun he hs => ?_, fun f args he => ?_, fun span expression clauses he => ?_, fun span name he => ?_⟩
  · exact (evaluate_moves node frame w he).sameBindings hn hs
  · exact (call_moves evaluate_moves f args w he).sameBindings hn outside
  · have hs := evaluate_eq_of_ends he
    rw [hs] at he ⊢
    obtain ⟨v, h, hv⟩ := comprehension_step_moves evaluate_moves span expression clauses frame w he
    have hs := h.sameBindings (by rw [scopeCount_newScope]; omega) (w.inside_head_ne frame hn)
    rw [SameBindings, World.scope_newScope w hn] at hs
    rcases hv with hv | ⟨c, hv⟩
    · rwa [hv]
    · rw [hv]
      exact hs
  · exact (findModule_moves evaluate_moves span name frame w he).sameBindings hn outside

/-- A world with given values and without files, where given names are bound globally. -/
def World.small (cells : List Cell) (names : List (String × Ref)) : World where
  store := ⟨cells.toArray, #[], #[⟨names.map fun (name, r) => (name, some (.value r)), none⟩]⟩
  out := ""
  input := []
  files := ⟨"", [], "", []⟩
  loader := .empty
  log := []

/-! ### Tokens and nodes without a place, for small programs -/

namespace Sketch

def mark (kind : Token.Kind) : Token := ⟨kind, .absent, default, default⟩

def name (s : String) : Token := ⟨.identifier, .text s, default, default⟩

def mention (s : String) : Node := .named default (name s)

def number (n : Int) : Node := .number default ⟨.int, .int n, default, default⟩

def string (s : String) : Node := .string default ⟨.string, .text s, default, default⟩

def top : Frame := programFrame "main"

def integer (n : Int) : Cell := .fresh (.number (.int n))

/-- A function that was made at the top of a program. -/
def function (name : String) (params : List String) (body : Node) : Cell :=
  ⟨.function name params body, none, none, some top⟩

end Sketch

open Sketch in
/-- A function that assigns to the name `x`, which is bound globally. -/
def assigningWorld : World :=
  .small [integer 1, function "f" [] (.assign default (name "x") (number 5))] [("x", 0)]

theorem evaluate_sameBindings_assigning :
    Ends (call evaluate 1 [] assigningWorld) ∧
      SameBindings Store.globalScope assigningWorld (after (call evaluate 1 [] assigningWorld)) := by
  have run : ∃ r v, call (evaluateTo 3) 1 [] assigningWorld = .ok r v := ⟨_, _, rfl⟩
  obtain ⟨r, v, hv⟩ := run
  have ends : Ends (call evaluate 1 [] assigningWorld) := by
    rw [(call_approximates (evaluateTo_approximates 3) 1 []).eq_of_ok hv]
    exact ends_ok r v
  exact ⟨ends, (evaluate_sameBindings default default assigningWorld Store.globalScope (by decide)).2.1 1 [] ends⟩

end Utterance

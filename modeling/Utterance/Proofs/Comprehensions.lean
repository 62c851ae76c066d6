import Utterance.Proofs.ComprehensionLoops
import Utterance.Proofs.SessionSeam

/-!
# Comprehensions and nested loops

A comprehension does what its loops do (`Comprehension.evaluate_comprehension`): it finds the same elements in the
same order and has the same effects, or it ends with the same error. The list of the loops is bound in a new scope,
and the worlds are matched from there on with this list apart (`Comprehension.running_begun`).

The loops pass every element to `append`, and a call moves its arguments into a frame of its own. A function among the
elements means something else from then on, so that the loops may find less
(`Comprehension.Sample.loops_lose_function`).
-/

namespace Utterance

open Eval World

variable {N : Matching} {n : Nat} {r : Ref}

/-- A state in which code can run in a frame: what the values, the names, the functions, the modules and the frame
refer to exists. -/
structure World.Ready (w : World) (frame : Frame) : Prop where
  closed : w.Closed
  callables : w.Scoped
  frame : w.HasScopes frame.scopes
  modules : ∀ e ∈ w.loader.cache, w.HasScopes (e.2.scope :: e.2.outer)

theorem World.Ready.start (files : Files) (input name : String) :
    (Session.start files input).Ready (programFrame name) where
  closed := Session.closed_start files input
  callables := (Session.Reachable.start files input).scoped
  frame := (Session.Reachable.start files input).scoped.global
  modules _ he := nomatch he

/-- A module or a script failed while it was executed, or a function was passed to `append`. -/
def Event.Disturbs (s : Store) : Event → Prop
  | .failed _ => True
  | .called (some .append) _ args => ∃ r ∈ args, (s.cell r).payload.isCallable = true
  | _ => False

instance (s : Store) (e : Event) : Decidable (e.Disturbs s) := by
  unfold Event.Disturbs
  split <;> infer_instance

namespace Comprehension

open Matching

variable {frame : Frame} {append list : Token} {span : Span} {expression : Node}
  {clauses : List Clause} {w v v' : World}

def listCell (span : Span) (frame : Frame) : Cell := ⟨.list #[], some span.start, some span.stop, some frame⟩

/-- The world in which the loops begin: there is a new list, bound in a new scope. -/
def begun (w : World) (span : Span) (frame : Frame) (name : String) : World :=
  (w.newScope.alloc (listCell span (w.inside frame))).modifyScope w.scopeCount
    (·.set name (some (.value w.size)))

theorem evaluate_list_nil (span : Span) (frame : Frame) (w : World) :
    evaluate (.list span []) frame w = .ok w.size (w.alloc (listCell span frame)) := by
  have hstep : step evaluate (.list span []) frame w = .ok w.size (w.alloc (listCell span frame)) := rfl
  exact evaluate_ok hstep

theorem loops_eq (w : World) (span : Span) (append list : Token) (expression : Node)
    (clauses : List Clause) (frame : Frame) :
    loops evaluate span append list expression clauses frame w =
      (do let _ ← evaluate (nested span append list expression clauses) (w.inside frame); return w.size)
        (begun w span frame list.text) := by
  have hstep : step evaluate (.assign span list (.list span [])) (w.inside frame) w.newScope =
      .ok w.size (begun w span frame list.text) := bind_ok (evaluate_list_nil span (w.inside frame) w.newScope)
  have hassign := evaluate_ok hstep
  show (evaluate (.assign span list (.list span [])) (w.inside frame) >>= fun r => do
    let _ ← evaluate (nested span append list expression clauses) (w.inside frame)
    return r) w.newScope = _
  rw [bind_ok hassign]

/-- What the loops have apart from the comprehension. -/
def apartOf (w : World) (name : String) : Apart := ⟨w.scopeCount, w.scopeCount, name, w.size⟩

/-- Every value stands for itself, and after the new list each for the next one. -/
def matchingOf (w : World) (h : w.Ready frame) (span : Span) (name : String) : Matching where
  values := Renaming.refl.resume w.size w.size (w.size + 1) fun _ _ hlt ha => ⟨hlt, ha ▸ Nat.lt_succ_of_lt hlt⟩
  scopes := .refl
  apart := some (apartOf w name)
  kept := [(w.size, listCell span (w.inside frame))]
  logged := w.log.length
  logged' := w.log.length
  given _ hr := .inl ⟨Nat.lt_of_lt_of_le hr h.closed.given, rfl⟩
  global := rfl
  inner a ha := by
    obtain rfl := Option.some.inj ha
    exact ⟨rfl, Nat.ne_of_gt (h.callables.global _ List.mem_cons_self)⟩
  alone e he r hp := by
    obtain rfl := List.mem_singleton.1 he
    rcases hp with ⟨hlt, heq⟩ | ⟨d, -, hd⟩
    · exact Nat.ne_of_lt hlt heq
    · omega

section

variable (w : World) (span : Span) (frame : Frame) (name : String)

theorem size_begun : (begun w span frame name).size = w.size + 1 := w.newScope.size_alloc _

theorem scopeCount_begun : (begun w span frame name).scopeCount = w.scopeCount + 1 :=
  (scopeCount_modifyScope _ _ _).trans w.scopeCount_newScope

theorem cell_begun (r : Ref) : (begun w span frame name).cell r =
    if r = w.size then listCell span (w.inside frame) else w.cell r :=
  cell_alloc w.newScope _ r

theorem scope_begun (hn : n ≠ w.scopeCount) : (begun w span frame name).scope n = w.scope n := by
  have hbefore : (begun w span frame name).scope n =
      (w.newScope.alloc (listCell span (w.inside frame))).scope n := scope_modifyScope_of_ne _ _ hn
  exact hbefore.trans (scope_push w n)

theorem scope_begun_new : (begun w span frame name).scope w.scopeCount =
    Scope.empty.set name (some (.value w.size)) := by
  have hlt : w.scopeCount < (w.newScope.alloc (listCell span (w.inside frame))).scopeCount :=
    Nat.lt_of_lt_of_eq (Nat.lt_succ_self _) (scopeCount_newScope w).symm
  have hbefore : (begun w span frame name).scope w.scopeCount =
      ((w.newScope.alloc (listCell span (w.inside frame))).scope w.scopeCount).set name
        (some (.value w.size)) := scope_modifyScope_self _ _ hlt
  have hempty : (w.newScope.alloc (listCell span (w.inside frame))).scope w.scopeCount = .empty :=
    (scope_push w _).trans (by simp [Store.scope])
  rw [hbefore, hempty]

end

theorem worlds_begun (h : w.Ready frame) (span : Span) (name : String) :
    (matchingOf w h span name).Worlds w.newScope (begun w span frame name) := by
  have hplain := worlds_of_closed h.closed
  have mono : ∀ r r', (plain w).Twins w.size r r' → (matchingOf w h span name).Twins w.size r r' := by
    rintro r _ ⟨hlt, rfl⟩
    exact ⟨hlt, .inl ⟨hlt, rfl⟩⟩
  refine {
    given := h.closed.given
    sized := ⟨0, rfl, size_begun w span frame name⟩
    spread := ⟨w.scopeCount + 1, ?_, ?_⟩
    cells := ?_
    kept := fun e he => ?_
    tables := hplain.tables.mono fun _ _ ht => ht.mono mono
    scopes := ?_
    own := fun a ha => ?_
    out := rfl
    input := rfl
    files := rfl
    loader := ⟨rfl, List.forall₂_same.2 fun e he => ⟨rfl, List.forall₂_same.2 fun _ _ => rfl, fun a ha s hs => ?_⟩⟩
    noise := rfl
    logged := Nat.le_refl _
    logged' := Nat.le_refl _ }
  · exact (scopeCount_newScope w).trans (Nat.zero_add _).symm
  · exact (scopeCount_begun w span frame name).trans (Nat.zero_add _).symm
  · rintro r r' ⟨hr, ⟨-, rfl⟩ | ⟨d, rfl, -⟩⟩
    · have hne : r ≠ w.size := Nat.ne_of_lt hr
      rw [cell_begun, if_neg hne]
      refine ⟨(hplain.cells r r ⟨hr, rfl⟩).payload.mono mono, ?_⟩
      show Framed _ _ (w.cell r).frame (w.cell r).frame
      cases (w.cell r).frame with
      | none => exact .none
      | some f => exact .some ⟨List.forall₂_same.2 fun _ _ => rfl, rfl⟩
    · exact absurd hr (Nat.not_lt.2 (Nat.le_add_right _ _))
  · obtain rfl := List.mem_singleton.1 he
    rw [cell_begun, if_pos rfl]
  · rintro n _ rfl
    rw [scope_push]
    by_cases hn : n = w.scopeCount
    · -- the new scope is empty without the name of the list
      rw [hn, scope_begun_new]
      have hempty : w.scope w.scopeCount = .empty := by simp [Store.scope]
      rw [hempty]
      have hhides : (matchingOf w h span name).hides w.scopeCount name = true := by
        simp [hides, matchingOf, apartOf]
      refine ⟨?_, rfl⟩
      simp [Scope.without, Scope.set, Scope.bindIn, Scope.empty, hhides]
    · rw [scope_begun w span frame name hn]
      have hnone : ∀ x, (matchingOf w h span name).hides n x = false := fun x => hides_eq_false fun a ha heq => by
        obtain rfl := Option.some.inj ha
        exact absurd heq.symm hn
      rw [Scope.without_of_none hnone]
      exact (hplain.scope_alike (show (plain w).scopes.pairs n n from rfl) fun _ ha => by cases ha).mono mono
  · obtain rfl := Option.some.inj ha
    show ((begun w span frame name).scope w.scopeCount).get? name = _
    rw [scope_begun_new, Scope.get?_set, if_pos rfl]
    rfl
  · obtain rfl := Option.some.inj ha
    have hlt := h.modules e he s hs
    exact ⟨Nat.ne_of_lt hlt, Nat.lt_of_lt_of_le hlt (by simp)⟩

theorem running_begun (h : w.Ready frame) (span : Span) (name : String) :
    (matchingOf w h span name).Running (apartOf w name) (w.inside frame) w.newScope (begun w span frame name) where
  worlds := worlds_begun h span name
  apart := rfl
  frames := ⟨List.forall₂_same.2 fun _ _ => rfl, rfl⟩
  sound := h.callables.reaches h.frame (.scope (.inl rfl) (.refl _ _))
  within n hn := by
    rw [scopeCount_newScope]
    rcases List.mem_cons.1 hn with rfl | hn
    · exact Nat.lt_succ_self _
    · exact Nat.lt_succ_of_lt (h.frame n hn)

/-- Between two worlds nothing failed, and no function was passed to `append`. -/
def Undisturbed (w v : World) : Prop := ∃ happened, v.log = happened ++ w.log ∧ ∀ e ∈ happened, ¬ e.Disturbs v.store

theorem calm_of_undisturbed (h : w.Ready frame) (hv : Undisturbed w v) (span : Span) (name : String) :
    (matchingOf w h span name).Calm v := by
  obtain ⟨happened, hlog, hall⟩ := hv
  intro e he hspoils
  have htake : v.log.take (v.log.length - w.log.length) = happened := by
    rw [hlog, List.length_append, Nat.add_sub_cancel, List.take_left]
  refine hall e (htake ▸ he) ?_
  unfold Matching.Spoils at hspoils
  split at hspoils
  · trivial
  · exact hspoils.2
  · exact hspoils.elim

/-- Two worlds agree on what was printed and read since a world, on the forms of all values that it had, and on the
names in all its scopes with the forms of their values. -/
structure SameEffects (w v v' : World) : Prop where
  out : v.out = v'.out
  input : v.input = v'.input
  values : ∀ q < w.size, ∀ form, v.store.printed form q = v'.store.printed form q
  names : ∀ n < w.scopeCount,
    (v.scope n).bindings.map (fun b => (b.1, b.2.map (Session.printedBinding v.store))) =
      (v'.scope n).bindings.map fun b => (b.1, b.2.map (Session.printedBinding v'.store))

/-- Both give lists whose elements have the same forms, or end with the same signal (errors with the same title and
details), with the same effects. -/
inductive SameOutcome (w : World) : Outcome Ref → Outcome Ref → Prop
  | ok {r r' es es' v v'} : (v.cell r).payload = .list es → (v'.cell r').payload = .list es' →
    (∀ form, es.toList.map (v.store.printed form) = es'.toList.map (v'.store.printed form)) → SameEffects w v v' →
    SameOutcome w (.ok r v) (.ok r' v')
  | error {s s' v v'} : s.Alike (fun _ _ => False) s' → SameEffects w v v' → SameOutcome w (.error s v) (.error s' v')

/-- In worlds that are matched later, what was there before has the same effects, also if the first world has more
values. -/
theorem sameEffects_of_later {name : String} {u : World} (h : w.Ready frame)
    (hlater : (matchingOf w h span name).Later w.newScope N v) (hv : N.Worlds v v')
    (hs : u.store.Alike (N.Twins v.size) v'.store) (hout : u.out = v.out) (hinput : u.input = v.input)
    (hscopes : u.store.scopes = v.store.scopes) : SameEffects w u v' := by
  refine ⟨hout.trans hv.out, hinput.trans hv.input, fun q hq form => ?_, fun n hn => ?_⟩
  · exact hs.printed form (hlater.twins ⟨hq, .inl ⟨hq, rfl⟩⟩)
  · have hlt : n < w.newScope.scopeCount := by
      rw [scopeCount_newScope]
      exact Nat.lt_succ_of_lt hn
    have hscope : u.scope n = v.scope n := by rw [World.scope, Store.scope, hscopes]; rfl
    rw [hscope]
    refine Session.printedNames_eq hs (hv.scope_alike (hlater.scopes n n hlt rfl) fun a ha => ?_)
    obtain rfl : apartOf w name = a := Option.some.inj (hlater.apart.symm.trans ha)
    exact Nat.ne_of_gt hn

theorem alike_alloc (hv : N.Worlds v v') (c : Cell) : (v.alloc c).store.Alike (N.Twins v.size) v'.store := by
  refine ⟨fun q q' hq => ?_, fun n => hv.table n⟩
  simp only [cell_alloc, if_neg (Nat.ne_of_lt hq.1)]
  exact (hv.cells q q' hq).payload

/-- A comprehension does what its loops do in a new scope, with a new list under a name that nobody uses, if it runs
through lists and tuples only, `append` means the function where an element is found, and it ends with a list or an
error (`observed`).

Because a call moves what it is given into its own frame, no element may be a function, and neither may any other
argument of `append`; and where a module or a script fails, its report may show such a frame (`Undisturbed`). -/
theorem evaluate_comprehension (h : w.Ready frame) (happend : append.text = "append") (hlist : list.text ≠ "append")
    (hnames : ∀ c ∈ clauses, c.1.text ≠ list.text) {depth : Nat}
    (hruns : Finishes (observed list.text depth expression clauses frame w))
    (hcalm : Undisturbed w (after (observed list.text depth expression clauses frame w))) (span span' : Span) :
    SameOutcome w (evaluate (.comprehension span expression clauses) frame w)
      (loops evaluate span' append list expression clauses frame w) := by
  have moving : Moving (evaluateWithin (avoids list.text w.scopeCount) depth) := ⟨evaluateWithin_moves _ depth⟩
  have hs : Setting (evaluateWithin (avoids list.text w.scopeCount) depth) (apartOf w list.text) (w.inside frame)
      append list := ⟨fun hM => evaluateWithin_meets hM depth, rfl, happend, rfl, hlist⟩
  have hholds : (matchingOf w h span' list.text).Holds (apartOf w list.text) w.newScope.size [] :=
    ⟨_, #[], List.mem_cons_self, rfl, .nil⟩
  have ho := nested_along hs expression clauses hnames span' (running_begun h span' list.text) hholds hruns
    (calm_of_undisturbed h hcalm span' list.text)
  have happrox := watched_approximates (evaluateWithin_approximates (avoids list.text w.scopeCount) depth)
    (w.inside frame) expression clauses
  rw [loops_eq]
  -- both runs end alike; the comprehension still makes a list of what it has found
  generalize hx : watched _ (w.inside frame) expression clauses w.newScope = x at ho
  generalize hy : evaluate (nested span' append list expression clauses) (w.inside frame) _ = y at ho
  cases ho with
  | @ok N found _ v v' hlater hv hfilled =>
    have hstep : step evaluate (.comprehension span expression clauses) frame w =
        .ok v.size (v.alloc ⟨.list found, some span.start, some span.stop, some frame⟩) :=
      bind_ok (happrox.eq_of_ok hx)
    have heval := evaluate_ok hstep
    rw [heval, bind_ok hy]
    obtain ⟨es, hes, hitems⟩ := hfilled.cell hv.worlds
    have halike := alike_alloc hv.worlds ⟨.list found, some span.start, some span.stop, some frame⟩
    refine .ok (by rw [World.cell_alloc, if_pos rfl]) hes (fun form => ?_)
      (sameEffects_of_later h hlater hv.worlds halike rfl rfl rfl)
    rw [← List.forall₂_eq_eq_eq, List.forall₂_map_left_iff, List.forall₂_map_right_iff]
    exact hitems.imp fun _ _ hq => halike.printed form hq
  | @error N s s' v v' hlater hv hs hss =>
    have hfound : (comprehension evaluate (w.inside frame) expression clauses >>= fun found =>
        make (.list found) span frame) w.newScope = .error s v :=
      bind_error (happrox.eq_of_error hx hs.ne_exhausted)
    have hstep : step evaluate (.comprehension span expression clauses) frame w = .error s v := hfound
    have heval := evaluate_of_step hstep (ends_error.2 hs.ne_exhausted)
    rw [heval, bind_error hy]
    exact .error (hs.alike hss) (sameEffects_of_later h hlater hv hv.alike rfl rfl rfl)

namespace Sample

def iterateTo {σ α : Type} (step : σ → Eval (σ ⊕ α)) : Nat → σ → World → Option (Outcome α)
  | 0, _, _ => none
  | n + 1, s, w => continued (iterateTo step n) (step s w)

variable {α : Type}

theorem iterate_eq_of_iterateTo {σ : Type} {step : σ → Eval (σ ⊕ α)} {s : σ} {w : World}
    {r : Outcome α} (h : iterateTo step n s w = some r) : iterate step s w = r := by
  have hall : ∀ n s w, iterateTo step n s w = some r → iterate? step s w = some r := by
    intro n
    induction n with
    | zero =>
      intro _ _ h
      cases h
    | succ n ih =>
      intro s w h
      rw [iterate?]
      unfold iterateTo at h
      generalize step s w = o at h ⊢
      cases o with
      | ok x v =>
        cases x with
        | inl s => exact ih s v h
        | inr a => exact h
      | error e v => exact h
  rw [iterate, hall n s w h]
  rfl

def gives {α : Type} (p : α → World → Bool) : Option (Outcome α) → Bool
  | some (.ok a v) => p a v
  | _ => false

theorem exists_of_gives {p : α → World → Bool} {o : Option (Outcome α)} (h : gives p o = true) :
    ∃ a v, o = some (.ok a v) ∧ p a v = true := by
  unfold gives at h
  split at h
  · exact ⟨_, _, rfl, h⟩
  · cases h

theorem bind_list {x : Eval Ref} {f : Ref → Payload → Eval α} {es : Array Ref} (hx : x w = .ok r v)
    (hp : (v.cell r).payload = .list es) : (do let r ← x; f r (← payload r)) w = f r (.list es) v := by
  rw [bind_ok hx]
  show f r (v.cell r).payload v = _
  rw [hp]

theorem ready_small {cells : List Cell} {names : List (String × Ref)} (given : 3 ≤ cells.length)
    (hcells : ∀ c ∈ cells, c.payload.refs = []) (hnames : ∀ b ∈ names, b.2 < cells.length)
    (hframes : ∀ c ∈ cells, ∀ f ∈ c.frame, f.scopes = [Store.globalScope]) (program : String) :
    (small cells names).Ready (programFrame program) := by
  have hglobal : (small cells names).HasScopes [Store.globalScope] := by
    intro n hn
    obtain rfl := List.mem_singleton.1 hn
    exact Nat.zero_lt_one
  refine ⟨Session.closed_small given hcells hnames, ⟨hglobal, fun {q f} _ hf => ?_⟩, hglobal, fun e he => nomatch he⟩
  have hcell : (small cells names).cell q = cells[q]?.getD default := by
    rw [World.cell, Store.cell, Array.getD_eq_getD_getElem?, ← Array.getElem?_toList]
    rfl
  rw [hcell] at hf
  cases hc : cells[q]? with
  | none =>
    rw [hc] at hf
    cases hf
  | some c =>
    rw [hc] at hf
    rw [hframes c (List.mem_of_getElem? hc) f hf]
    exact hglobal

open Sketch

/-- The name `x` means 5, and the function `f` gives its value. -/
def world : World :=
  .small [integer 0, integer 0, integer 1, .fresh (.builtin .append), integer 5, function "f" [] (mention "x")]
    [("append", 3), ("x", 4), ("f", 5)]

theorem ready_world : world.Ready top :=
  ready_small (by decide) (by decide) (by decide) (by decide) "main"

def numbers : Node := .list default [number 1, number 2]

def condition : Node :=
  .binary default (.apply default (mention "f") []) (mark .ee) (number 5)

def clause : Clause := (name "x", numbers, [condition])

def inner : Frame := world.inside top

/-- The world of the comprehension and the one of the loops, when the numbers are made. -/
def filled (w : World) : World := after (evaluateTo 2 numbers inner w)

theorem comprehension_function : ∃ r v,
    evaluate (.comprehension default (mention "f") [clause]) top world = .ok r v ∧
      v.store.printed .quoted r = some (.ok "[<function f>, <function f>]") := by
  have hitems : evaluateTo 8 numbers inner world.newScope = .ok 8 (filled world.newScope) := rfl
  have hlist : ((filled world.newScope).cell 8).payload = .list #[6, 7] := rfl
  have hrun : gives (fun found v => decide ((v.alloc ⟨.list found, some default, some default,
      some top⟩).store.printed .quoted v.size = some (.ok "[<function f>, <function f>]")))
      (iterateTo (collectRound (evaluateTo 8) inner "x" [condition] 8
        (comprehension (evaluateTo 8) inner (mention "f") [])) 3 (0, #[]) (filled world.newScope)) = true := by
    decide +kernel
  obtain ⟨found, v, hv, hfound⟩ := exists_of_gives hrun
  have hcollected : comprehension (evaluateTo 8) inner (mention "f") [clause] world.newScope = .ok found v :=
    (bind_list hitems hlist).trans (iterate_eq_of_iterateTo hv)
  have heval : evaluateTo 9 (.comprehension default (mention "f") [clause]) top world =
      .ok v.size (v.alloc ⟨.list found, some default, some default, some top⟩) := bind_ok hcollected
  exact ⟨_, _, (evaluateTo_approximates 9 _ _).eq_of_ok heval, of_decide_eq_true hfound⟩

theorem loops_function : ∃ r v,
    loops evaluate default (name "append") (name "r") (mention "f") [clause] top world = .ok r v ∧
      v.store.printed .quoted r = some (.ok "[<function f>]") := by
  let w := begun world default top "r"
  let call := nested default (name "append") (name "r") (mention "f") []
  have hitems : evaluateTo 8 numbers inner w = .ok 9 (filled w) := rfl
  have hlist : ((filled w).cell 9).payload = .list #[7, 8] := rfl
  have hrun : gives (fun _ v => decide (v.store.printed .quoted world.size = some (.ok "[<function f>]")))
      (iterateTo (eachRound (evaluateTo 8) inner "x" 9 (.list default [guarded default call [condition]])) 3 0
        (filled w)) = true := by
    decide +kernel
  obtain ⟨_, v, hv, hprinted⟩ := exists_of_gives hrun
  have heach : evaluateTo 9 (nested default (name "append") (name "r") (mention "f") [clause]) inner w =
      .ok Store.null v := (bind_list hitems hlist).trans (bind_ok (iterate_eq_of_iterateTo hv))
  refine ⟨world.size, v, ?_, of_decide_eq_true hprinted⟩
  rw [loops_eq]
  exact bind_ok ((evaluateTo_approximates 9 _ _).eq_of_ok heach)

/-- The loops put `f` into the list by a call, which moves it into a top where `x` means something else: it passes
the condition only once. The comprehension finds it twice. -/
theorem loops_lose_function : world.Ready top ∧
    (∃ r v, evaluate (.comprehension default (mention "f") [clause]) top world = .ok r v ∧
      v.store.printed .quoted r = some (.ok "[<function f>, <function f>]")) ∧
    ∃ r v,
      loops evaluate default (name "append") (name "r") (mention "f") [clause] top world = .ok r v ∧
        v.store.printed .quoted r = some (.ok "[<function f>]") :=
  ⟨ready_world, comprehension_function, loops_function⟩

/-- With `x` in the place of `f`, no function is passed. -/
theorem evaluate_comprehension_numbers :
    Finishes (observed (name "r").text 8 (mention "x") [clause] top world) ∧
    Undisturbed world (after (observed (name "r").text 8 (mention "x") [clause] top world)) ∧
    SameOutcome world (evaluate (.comprehension default (mention "x") [clause]) top world)
      (loops evaluate default (name "append") (name "r") (mention "x") [clause] top world) := by
  let ev := evaluateWithin (avoids "r" 1) 8
  have hitems : ev numbers inner world.newScope = .ok 8 (filled world.newScope) := rfl
  have hlist : ((filled world.newScope).cell 8).payload = .list #[6, 7] := rfl
  have hrun : gives (fun _ v => decide (∀ e ∈ v.log, ¬ e.Disturbs v.store))
      (iterateTo (collectRound ev inner "x" [condition] 8 (watched ev inner (mention "x") [])) 3 (0, #[])
        (filled world.newScope)) = true := by
    decide +kernel
  obtain ⟨found, v, hv, hlog⟩ := exists_of_gives hrun
  have hwatched : watched ev inner (mention "x") [clause] world.newScope = .ok found v :=
    (bind_list hitems hlist).trans (iterate_eq_of_iterateTo hv)
  have hobserved : observed (name "r").text 8 (mention "x") [clause] top world = .ok found v := hwatched
  have finishes : Finishes (observed (name "r").text 8 (mention "x") [clause] top world) := by
    rw [hobserved]
    intro _ _ h
    cases h
  have undisturbed :
      Undisturbed world (after (observed (name "r").text 8 (mention "x") [clause] top world)) := by
    rw [hobserved]
    exact ⟨v.log, (List.append_nil _).symm, of_decide_eq_true hlog⟩
  exact ⟨finishes, undisturbed,
    evaluate_comprehension ready_world rfl (by decide) (by decide) finishes undisturbed default default⟩

end Sample

end Comprehension

end Utterance

import Utterance.Proofs.ReachEvaluate

/-!
# What every evaluation keeps

A contract says what is asked of a world and of the ways in which an evaluation ends: of the loader and the log, of
the calls around code, of reports, and of loop control. Its laws are about the few places where these change: where a
call is entered, where a report is made, where a module is begun and ended. `Keeps P b x` says that the computation
`x` keeps a contract if `P` holds; `b` says that it stands in a loop. The paths that are being loaded are the same
afterwards, unless the program ends. Some contracts hold only if the sources that are executed meet a condition, which
is read off the log (`calm`).
-/

namespace Utterance

open Eval

theorem Payload.contained_of_not_callable {p : Payload} (h : p.isCallable = false) : p.contained = true := by
  cases p with
  | function => cases h
  | _ => rfl

/-- Whether loop control is in its place in a text; a text without a tree has none. -/
def Source.contained (source : Source) : Bool :=
  match Token.scan source with
  | .error _ => true
  | .ok lexemes =>
    match Grammar.parse lexemes with
    | .ok tree => tree.contained false
    | .error _ => true

theorem Source.contained_eq {source : Source} {lexemes : List Lexeme} {tree : Node}
    (hscan : Token.scan source = .ok lexemes) (hparse : Grammar.parse lexemes = .ok tree) :
    source.contained = tree.contained false := by
  unfold contained
  rw [hscan]
  dsimp only
  rw [hparse]

/-- Whether the loading of a module was begun or completed. -/
def Event.isLoading : Event → Bool
  | .begun .. => true
  | .completed .. => true
  | _ => false

def Signal.isFinal : Signal → Bool
  | .exit => true
  | .interrupt => true
  | .exhausted => true
  | _ => false

/-- What is asked of worlds and of the ways in which evaluations end. -/
structure Contract where
  /-- Loop control has to be in its place. -/
  strict : Prop
  /-- A log of which something can be said. -/
  calm : List Event → Prop
  /-- What is asked of the loader and the log. -/
  state : Files → Loader LoadedModule → List Event → Prop
  /-- What is asked of the place of a call. -/
  placed : Option Position → Option Position → Prop
  /-- What is asked of the calls around code. -/
  levels : List Level → Prop
  /-- What is asked of a report. -/
  report : Diagnostic → Prop
  calm_of_cons {e : Event} {log : List Event} : calm (e :: log) → calm log
  contained_of_begun {source : Source} {before : Loader LoadedModule} {log : List Event} : strict →
    calm (.begun source before :: log) → source.contained = true
  contained_of_ran {source : Source} {log : List Event} : strict → calm (.ran source :: log) → source.contained = true
  noted {files : Files} {l : Loader LoadedModule} {log : List Event} {e : Event} : e.isLoading = false →
    state files l log → state files l (e :: log)
  begun {files : Files} {l : Loader LoadedModule} {log : List Event} {name path text : String}
    {asking : Option String} :
    findModule? files name asking = some path → l.isLoading path = false → l.isCached path = false →
    state files l log → state files (l.beginLoading path) (.begun ⟨path, text⟩ l :: log)
  ended {files : Files} {l : Loader LoadedModule} {log : List Event} (path : String) : state files l log →
    state files (l.endLoading path) log
  completed {files : Files} {l : Loader LoadedModule} {log : List Event} {path : String} (m : LoadedModule) :
    path ∈ l.loading → state files l log →
    state files ((l.endLoading path).remember path m) (.completed path :: log)
  placed_some (start stop : Position) : placed (some start) (some stop)
  levels_nil : levels []
  levels_top (name : String) : levels [⟨name, none⟩]
  levels_call {b : Option Builtin} {start stop : Option Position} {outer : List Level} {scopes : List Nat}
    {args : List Ref} {log : List Event} (name : String) :
    calm (.called b ⟨⟨name, start⟩ :: outer, scopes⟩ args :: log) → placed start stop → levels outer →
    levels (⟨name, start⟩ :: outer)
  report_placed {start stop : Option Position} {around : List Level} (details : String) : placed start stop →
    levels around → report ⟨.runtime around, start, stop, details⟩
  report_operand {around : List Level} {details : String} (start stop : Option Position) : OperandReport details →
    levels around → report ⟨.runtime around, start, stop, details⟩
  report_missing (searched : List String) (start stop : Position) (details : String) :
    report ⟨.moduleNotFound searched, some start, some stop, details⟩
  report_circular (chain : List String) (start stop : Position) (details : String) :
    report ⟨.circularImport chain, some start, some stop, details⟩

namespace Contract

def loose : Contract where
  strict := False
  calm _ := True
  state _ _ _ := True
  placed _ _ := True
  levels _ := True
  report _ := True
  calm_of_cons _ := trivial
  contained_of_begun h := h.elim
  contained_of_ran h := h.elim
  noted _ _ := trivial
  begun _ _ _ _ := trivial
  ended _ _ := trivial
  completed _ _ _ := trivial
  placed_some _ _ := trivial
  levels_nil := trivial
  levels_top _ := trivial
  levels_call _ _ _ _ := trivial
  report_placed _ _ _ := trivial
  report_operand _ _ _ _ := trivial
  report_missing _ _ _ _ := trivial
  report_circular _ _ _ _ := trivial

variable (C : Contract)

def Knows (frame : Frame) : Prop := C.levels frame.levels

/-- A value has a frame whose code may run, if it has one, and loop control stays in its body. -/
structure Sound (c : Cell) : Prop where
  frameIn : c.FrameIn C.Knows
  contained : C.strict → c.payload.contained = true

/-- A world as the contract asks, while the paths `stack` are being loaded. -/
structure Holds (stack : List String) (w : World) : Prop where
  loading : w.loader.loading = stack
  state : C.state w.files w.loader w.log
  cells : ∀ r, C.Sound (w.cell r)

/-- The signals that evaluation may end with; `b` says that it stands in a loop. -/
def Allows (b : Bool) : Signal → Prop
  | .error d => C.report d
  | .cut => C.strict → b = true
  | .skip => C.strict → b = true
  | _ => True

/-- An outcome as the contract asks. Only what ends the program leaves other paths in the loader. -/
def Ended {α : Type} (stack : List String) (b : Bool) : Outcome α → Prop
  | .ok _ w => C.Holds stack w
  | .error s w => C.Allows b s ∧ ∃ left, C.Holds left w ∧ (s.isFinal = false → left = stack)

/-- In the world `w`, a computation ends as `Post` says if `P` holds. -/
def RunsAt {α : Type} (P : Prop) (stack : List String) (Post : Outcome α → Prop) (x : Eval α) (w : World) : Prop :=
  Ends (x w) → C.calm (after (x w)).log → C.calm w.log ∧ (P → C.Holds stack w → Post (x w))

/-- In the world `w`, a computation keeps the contract if `P` holds. -/
def KeepsAt {α : Type} (P : Prop) (b : Bool) (stack : List String) (x : Eval α) (w : World) : Prop :=
  C.RunsAt P stack (C.Ended stack b) x w

def Keeps {α : Type} (P : Prop) (b : Bool) (x : Eval α) : Prop := ∀ stack w, C.KeepsAt P b stack x w

/-- A check of loop control that has to succeed if `P` holds. -/
def Demands (P : Prop) (check : Bool) : Prop := P → C.strict → check = true

variable {C} {α β σ : Type} {P Q : Prop} {b b' : Bool} {stack : List String}

namespace Demands

variable {x y : Bool}

theorem left (h : C.Demands P (x && y)) : C.Demands P x := fun hp hs => (Bool.and_eq_true_iff.1 (h hp hs)).1

theorem right (h : C.Demands P (x && y)) : C.Demands P y := fun hp hs => (Bool.and_eq_true_iff.1 (h hp hs)).2

theorem mem {nodes : List Node} (h : C.Demands P (Node.allContained nodes b)) {node : Node} (hn : node ∈ nodes) :
    C.Demands P (node.contained b) := by
  induction nodes with
  | nil => cases hn
  | cons first nodes ih =>
    rcases List.mem_cons.1 hn with rfl | hn
    · exact h.left
    · exact ih h.right hn

end Demands

theorem levels_of_frameIn {c : Cell} (h : c.FrameIn C.Knows) : C.levels c.levels := by
  unfold Cell.levels
  cases hf : c.frame with
  | none => exact C.levels_nil
  | some frame => exact h frame hf

theorem Allows.of_false {s : Signal} (h : C.Allows false s) : C.Allows b s := by
  cases s with
  | cut | skip => exact fun hs => nomatch h hs
  | _ => exact h

variable {f : α → Eval β} {w : World}

variable {x : Eval α}

theorem RunsAt.mono {Post : Outcome α → Prop} (h : C.RunsAt Q stack Post x w) (hpq : P → Q) :
    C.RunsAt P stack Post x w :=
  fun he hc => ⟨(h he hc).1, fun hp => (h he hc).2 (hpq hp)⟩

theorem RunsAt.bind {inner : List String} {Post : Outcome β → Prop} (hx : C.RunsAt P stack (C.Ended inner b) x w)
    (hs : ∀ s v, x w = .error s v → C.Ended inner b (.error s v : Outcome α) → Post (.error s v))
    (hf : ∀ a v, x w = .ok a v → C.RunsAt P inner Post (f a) v) : C.RunsAt P stack Post (x >>= f) w := by
  intro he hc
  cases h : x w with
  | ok a v =>
    rw [bind_ok h] at he hc ⊢
    -- the log at the end is calm, and so is what `x` leaves; hence the second part comes first
    obtain ⟨hv, hr⟩ := hf a v h he hc
    obtain ⟨hw, hk⟩ := hx (by rw [h]; exact ends_ok a v) (by rw [h]; exact hv)
    refine ⟨hw, fun hp hh => hr hp ?_⟩
    have hk := hk hp hh
    rwa [h] at hk
  | error s v =>
    rw [bind_error h] at he hc ⊢
    obtain ⟨hw, hk⟩ := hx (by rw [h]; exact ends_error.2 (ends_error.1 he)) (by rw [h]; exact hc)
    refine ⟨hw, fun hp hh => hs s v h ?_⟩
    have hk := hk hp hh
    rwa [h] at hk

theorem KeepsAt.bind (hx : C.KeepsAt P b stack x w) (hf : ∀ a v, x w = .ok a v → C.KeepsAt P b stack (f a) v) :
    C.KeepsAt P b stack (x >>= f) w :=
  RunsAt.bind hx (fun _ _ _ h => h) hf

theorem KeepsAt.read_bind {a : α} (hx : x w = .ok a w) (hf : C.KeepsAt P b stack (f a) w) :
    C.KeepsAt P b stack (x >>= f) w := by
  intro he hc
  rw [bind_ok hx] at he hc ⊢
  exact hf he hc

namespace Keeps

theorem mono (h : C.Keeps Q b x) (hpq : P → Q) : C.Keeps P b x := fun stack w => (h stack w).mono hpq

theorem bind {f : α → Eval β} (hx : C.Keeps P b x) (hf : ∀ a, C.Keeps P b (f a)) : C.Keeps P b (x >>= f) :=
  fun stack w => (hx stack w).bind fun a v _ => hf a stack v

theorem throw {s : Signal} (h : P → C.Allows b s) : C.Keeps P b (throw s : Eval α) :=
  fun stack _ _ hc => ⟨hc, fun hp hh => ⟨h hp, stack, hh, fun _ => rfl⟩⟩

theorem fault (f : Fault) : C.Keeps P b (fault f : Eval α) := throw fun _ => trivial

theorem ite {c : Prop} [Decidable c] {y : Eval α} (hx : C.Keeps P b x) (hy : C.Keeps P b y) :
    C.Keeps P b (if c then x else y) := by
  split
  · exact hx
  · exact hy

theorem read (h : ∀ w, ∃ a, x w = .ok a w) : C.Keeps P b x := by
  intro stack w _ hc
  obtain ⟨a, ha⟩ := h w
  rw [ha] at hc ⊢
  exact ⟨hc, fun _ hh => hh⟩

theorem pure (a : α) : C.Keeps P b (pure a : Eval α) := read fun _ => ⟨a, rfl⟩

theorem mapM {f : α → Eval β} (l : List α) (h : ∀ a ∈ l, C.Keeps P b (f a)) : C.Keeps P b (l.mapM f) := by
  induction l with
  | nil => exact .pure _
  | cons a l ih =>
    rw [List.mapM_cons]
    exact (h a (.head l)).bind fun _ => (ih fun a ha => h a (.tail _ ha)).bind fun _ => .pure _

theorem forM {f : α → Eval PUnit} (l : List α) (h : ∀ a, C.Keeps P b (f a)) : C.Keeps P b (l.forM f) := by
  induction l with
  | nil => exact .pure _
  | cons a l ih => exact (h a).bind fun _ => ih

theorem iterate {step : σ → Eval (σ ⊕ α)} (h : ∀ s, C.Keeps P b (step s)) (s : σ) :
    C.Keeps P b (iterate step s) := by
  intro stack w he
  refine iterate_induction (P := fun _ w r => Ends r → C.calm (after r).log →
    C.calm w.log ∧ (P → C.Holds stack w → C.Ended stack b r)) ?_ ?_ ?_ s w he he
  · -- a round is judged by the log that the later rounds leave
    intro s w s' v r hs ih he hc
    obtain ⟨hv, hr⟩ := ih he hc
    obtain ⟨hw, hk⟩ := h s stack w (by rw [hs]; exact ends_ok _ v) (by rw [hs]; exact hv)
    refine ⟨hw, fun hp hh => hr hp ?_⟩
    have hk := hk hp hh
    rwa [hs] at hk
  · intro s w a v hs _ hc
    have hk := h s stack w (by rw [hs]; exact ends_ok _ v) (by rw [hs]; exact hc)
    rwa [hs] at hk
  · intro s w e v hs he hc
    have hk := h s stack w (by rw [hs]; exact ends_error.2 (ends_error.1 he)) (by rw [hs]; exact hc)
    rwa [hs] at hk

/-- A handler that passes on what ends the program. What it handles may stand in a loop that ends there. -/
theorem tryCatch {f : Signal → Eval α} (hx : C.Keeps P b' x) (hf : ∀ s, C.Keeps (P ∧ C.Allows b' s) b (f s))
    (hs : f .exit = MonadExcept.throw .exit ∧ f .interrupt = MonadExcept.throw .interrupt ∧
      f .exhausted = MonadExcept.throw .exhausted) : C.Keeps P b (tryCatch x f) := by
  have hs (s : Signal) (h : s.isFinal = true) : f s = MonadExcept.throw s := by
    cases s with
    | exit => exact hs.1
    | interrupt => exact hs.2.1
    | exhausted => exact hs.2.2
    | _ => cases h
  intro stack w he hc
  cases h : x w with
  | ok a v =>
    rw [tryCatch_ok h] at hc ⊢
    have hk := hx stack w (by rw [h]; exact ends_ok a v) (by rw [h]; exact hc)
    rwa [h] at hk
  | error s v =>
    rw [tryCatch_error h] at he hc ⊢
    have hends : s ≠ .exhausted := by
      rintro rfl
      rw [hs _ rfl] at he
      exact ends_error.1 he rfl
    obtain ⟨hv, hr⟩ := hf s stack v he hc
    obtain ⟨hw, hk⟩ := hx stack w (by rw [h]; exact ends_error.2 hends) (by rw [h]; exact hv)
    refine ⟨hw, fun hp hh => ?_⟩
    have hk := hk hp hh
    rw [h] at hk
    obtain ⟨ha, left, hleft, heq⟩ := hk
    cases hfinal : s.isFinal with
    | false =>
      obtain rfl := heq hfinal
      exact hr ⟨hp, ha⟩ hleft
    | true =>
      -- what ends the program passes, whatever is being loaded then
      rw [hs s hfinal]
      refine ⟨?_, left, hleft, fun h => ?_⟩
      · cases s with
        | cut | skip => cases hfinal
        | _ => exact ha
      · rw [hfinal] at h
        cases h

theorem cell {f : Cell → Eval α} (r : Ref) (h : ∀ c, C.Keeps (P ∧ C.Sound c) b (f c)) :
    C.Keeps P b (cell r >>= f) := by
  intro stack w he hc
  obtain ⟨hw, hk⟩ := h (w.cell r) stack w he hc
  exact ⟨hw, fun hp hh => hk ⟨hp, hh.cells r⟩ hh⟩

theorem update (h : ∀ w, ∃ a v, x w = .ok a v ∧ v.files = w.files ∧ v.loader = w.loader ∧ v.log = w.log ∧
    (P → (∀ r, C.Sound (w.cell r)) → ∀ r, C.Sound (v.cell r))) : C.Keeps P b x := by
  intro stack w _ hc
  obtain ⟨a, v, hx, hfiles, hloader, hlog, hcells⟩ := h w
  rw [hx] at hc ⊢
  refine ⟨hlog ▸ hc, fun hp hh => ⟨hloader ▸ hh.loading, ?_, hcells hp hh.cells⟩⟩
  rw [hfiles, hloader, hlog]
  exact hh.state

theorem ofPlain (site : Option Call) (hx : Plain (fun _ => True) site x) (hp : P → Plain C.Knows site x)
    (hs : ∀ c, site = some c → P → C.placed c.start c.stop ∧ C.Knows c.frame) :
    C.Keeps P b x := by
  intro stack w _ hc
  -- the log has to stay also where `P` fails
  obtain ⟨hfiles, hloader, hlog⟩ := (hx w fun _ _ _ => trivial).1.rest
  refine ⟨hlog ▸ hc, fun p hh => ?_⟩
  obtain ⟨hm, hfail⟩ := hp p w fun r => (hh.cells r).frameIn
  have holds : C.Holds stack (after (x w)) := by
    refine ⟨hloader ▸ hh.loading, by rw [hfiles, hloader, hlog]; exact hh.state, hm.cells (fun c hp hf => ?_) hh.cells⟩
    exact ⟨hf, fun _ => Payload.contained_of_not_callable hp⟩
  cases h : x w with
  | ok a v => rwa [h] at holds
  | error s v =>
    rw [h] at holds
    refine ⟨?_, stack, holds, fun _ => rfl⟩
    cases hfail s v h with
    | operand start stop hcell hd => exact C.report_operand start stop hd (levels_of_frameIn hcell)
    | refused details hsite => exact C.report_placed details (hs _ hsite p).1 (hs _ hsite p).2
    | _ => trivial

end Keeps

end Contract

end Utterance

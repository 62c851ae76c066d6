import Utterance.Eval.Assembly

/-!
# Approximation

A computation approximates another if it never ends or gives the same (`Approximates`). Everything that is built from
an evaluator is monotone in it: with a better approximation of the evaluator it is better approximated itself. So the
recursion of `step` has a least solution, and that is how nodes are evaluated (`Utterance.Eval.Evaluate`).
-/

namespace Utterance.Eval

variable {α β σ : Type}

/-- One computation approximates another if in every world it never ends or gives the same. -/
def Approximates (x y : Eval α) : Prop := ∀ w, (∃ v, x w = .error .exhausted v) ∨ x w = y w

namespace Approximates

theorem eq_of_ok {x y : Eval α} {w v : World} {a : α} (h : Approximates x y) (hx : x w = .ok a v) : y w = .ok a v := by
  rcases h w with ⟨u, hu⟩ | hw
  · rw [hu] at hx
    cases hx
  · rw [← hw, hx]

theorem eq_of_error {x y : Eval α} {w v : World} {s : Signal} (h : Approximates x y) (hx : x w = .error s v)
    (hs : s ≠ .exhausted) : y w = .error s v := by
  rcases h w with ⟨u, hu⟩ | hw
  · rw [hu] at hx
    cases hx
    exact absurd rfl hs
  · rw [← hw, hx]

protected theorem refl (x : Eval α) : Approximates x x := fun _ => .inr rfl

protected theorem bind {x y : Eval α} {f g : α → Eval β} (h : Approximates x y)
    (hf : ∀ a, Approximates (f a) (g a)) : Approximates (x >>= f) (y >>= g) := by
  intro w
  show (∃ v, EStateM.bind x f w = _) ∨ EStateM.bind x f w = EStateM.bind y g w
  unfold EStateM.bind
  rcases h w with ⟨v, hv⟩ | hw
  · rw [hv]
    exact .inl ⟨v, rfl⟩
  · rw [← hw]
    cases x w with
    | ok a v => exact hf a v
    | error s v => exact .inr rfl

/-- A handler that does not handle endless evaluation keeps approximation. -/
protected theorem tryCatch {x y : Eval α} {f g : Signal → Eval α} (h : Approximates x y)
    (hf : ∀ s, Approximates (f s) (g s)) (hs : f .exhausted = throw .exhausted) :
    Approximates (tryCatch x f) (tryCatch y g) := by
  intro w
  show (∃ v, EStateM.tryCatch x f w = _) ∨ EStateM.tryCatch x f w = EStateM.tryCatch y g w
  delta EStateM.tryCatch
  dsimp only
  rcases h w with ⟨v, hv⟩ | hw
  · left
    rw [hv]
    exact ⟨v, congrFun hs v⟩
  · rw [← hw]
    cases x w with
    | ok a v => exact .inr rfl
    | error s v => exact hf s v

protected theorem mapM {f g : α → Eval β} (l : List α) (h : ∀ a, Approximates (f a) (g a)) :
    Approximates (l.mapM f) (l.mapM g) := by
  induction l with
  | nil => exact .refl _
  | cons a l ih =>
    rw [List.mapM_cons, List.mapM_cons]
    exact (h a).bind fun _ => ih.bind fun _ => .refl _

protected theorem ite {c : Prop} [Decidable c] {x y x' y' : Eval α} (h : Approximates x x')
    (h' : Approximates y y') : Approximates (if c then x else y) (if c then x' else y') := by
  split <;> assumption

/-- A run of rounds that ends does so for better approximated rounds, too. -/
theorem iterate?_of_approximates {f g : σ → Eval (σ ⊕ α)} (h : ∀ s, Approximates (f s) (g s)) :
    ∀ s w r, iterate? f s w = some r → (∃ v, r = .error .exhausted v) ∨ iterate? g s w = some r := by
  apply iterate?.partial_correctness
  intro rec ih s w r hr
  rw [iterate?]
  rcases h s w with ⟨v, hv⟩ | hw
  · rw [hv] at hr
    exact .inl ⟨v, (Option.some.inj hr).symm⟩
  · rw [← hw]
    cases hf : f s w with
    | error e v => rw [hf] at hr; exact .inr hr
    | ok a v =>
      rw [hf] at hr
      cases a with
      | inl s' => exact ih s' v r hr
      | inr a => exact .inr hr

protected theorem iterate {f g : σ → Eval (σ ⊕ α)} (h : ∀ s, Approximates (f s) (g s)) (s : σ) :
    Approximates (iterate f s) (iterate g s) := by
  intro w
  unfold iterate
  cases hr : iterate? f s w with
  | none => exact .inl ⟨w, rfl⟩
  | some r =>
    rcases iterate?_of_approximates h s w r hr with ⟨v, rfl⟩ | hg
    · exact .inl ⟨v, rfl⟩
    · rw [hg]
      exact .inr rfl

end Approximates

/-- One evaluator approximates another if it does so for every node and frame. -/
def EvaluatorApproximates (ev ev' : Evaluator) : Prop := ∀ node frame, Approximates (ev node frame) (ev' node frame)

variable {ev ev' : Evaluator}

variable (h : EvaluatorApproximates ev ev')

include h

theorem runTree_approximates (tree : Node) (frame : Frame) :
    Approximates (runTree ev tree frame) (runTree ev' tree frame) :=
  ((h tree frame).bind fun _ => .refl _).tryCatch (fun _ => .refl _) rfl

theorem runText_approximates (source : Source) : Approximates (runText ev source) (runText ev' source) := by
  refine (Approximates.refl _).bind fun prepared => ?_
  cases prepared with
  | error d => exact .refl _
  | ok tree => exact runTree_approximates h tree _

theorem runModule_approximates (name path text : String) :
    Approximates (runModule ev name path text) (runModule ev' name path text) := by
  refine (Approximates.refl _).bind fun prepared => ?_
  cases prepared with
  | error d => exact .refl _
  | ok tree =>
    exact (Approximates.refl _).bind fun scope => (runTree_approximates h tree _).bind fun _ => .refl _

theorem loadModule_approximates (span : Span) (name path : String)
    (frame : Frame) : Approximates (loadModule ev span name path frame) (loadModule ev' span name path frame) := by
  refine (Approximates.refl _).bind fun l => .ite (.refl _) ((Approximates.refl _).bind fun w => ?_)
  cases moduleText w.files path with
  | error report => exact .refl _
  | ok text =>
    refine (Approximates.refl _).bind fun _ => (Approximates.refl _).bind fun _ => .bind ?_ fun _ => .refl _
    exact (runModule_approximates h name path text).tryCatch (fun _ => .refl _) rfl

theorem findModule_approximates (span : Span) (name : String)
    (frame : Frame) : Approximates (findModule ev span name frame) (findModule ev' span name frame) := by
  refine (Approximates.refl _).bind fun w => ?_
  cases findModule? w.files name (askingFile frame) with
  | none => exact .refl _
  | some path =>
    refine (Approximates.refl _).bind fun l => ?_
    cases l.get? path with
    | some m => exact .refl _
    | none => exact loadModule_approximates h span name path frame

theorem bring_approximates (span : Span) (path : Token) (items : Option (List Item)) (frame : Frame) :
    Approximates (bring ev span path items frame) (bring ev' span path items frame) :=
  (Approximates.refl _).bind fun _ => (findModule_approximates h span path.text frame).bind fun _ => .refl _

theorem callRun_approximates (c : Call) (r : Ref) : Approximates (Call.run ev c r) (Call.run ev' c r) := by
  refine (Approximates.refl _).bind fun name => (Approximates.refl _).bind fun shownName =>
    (Approximates.refl _).bind fun w => ?_
  cases Call.scriptText w.files name with
  | error f => exact .refl _
  | ok text =>
    exact (Approximates.refl _).bind fun _ => (runText_approximates h ⟨shownName, text⟩).bind fun _ => .refl _

theorem builtin_approximates (c : Call) (b : Builtin) (args : List Ref) :
    Approximates (builtin ev c b args) (builtin ev' c b args) := by
  unfold builtin
  split
  case h_12 r => exact callRun_approximates h c r
  all_goals exact .refl _

theorem call_approximates (f : Ref) (args : List Ref) : Approximates (call ev f args) (call ev' f args) := by
  refine (Approximates.refl _).bind fun callee => ?_
  cases callee.payload with
  | function name params body =>
    exact (Approximates.refl _).bind fun frame => (h body frame).tryCatch (fun _ => .refl _) rfl
  | builtin b => exact (Approximates.refl _).bind fun frame => builtin_approximates h _ b args
  | _ => exact .refl _

theorem application_approximates (span : Span) (callee : Node) (args : List Node) (frame : Frame) :
    Approximates (application ev span callee args frame) (application ev' span callee args frame) :=
  (h callee frame).bind fun _ => (Approximates.refl _).bind fun _ => (Approximates.refl _).bind fun f =>
    (Approximates.mapM args fun node => h node frame).bind fun rs =>
      (call_approximates h f rs).bind fun _ => .refl _

theorem loopBody_approximates (frame : Frame) (body : Node) :
    Approximates (loopBody ev frame body) (loopBody ev' frame body) :=
  ((h body frame).bind fun _ => .refl _).tryCatch (fun _ => .refl _) rfl

theorem attempt_approximates (span : Span) (body handler : Node) (name : Option Token) (frame : Frame) :
    Approximates (attempt ev span body handler name frame) (attempt ev' span body handler name frame) := by
  refine (h body frame).tryCatch (fun s => ?_) rfl
  cases s with
  | error d => exact (Approximates.refl _).bind fun _ => (Approximates.refl _).bind fun _ => h handler frame
  | _ => exact .refl _

omit h

/-- What is put together from evaluations of parts is monotone in the evaluator. -/
theorem Assembled.approximates {S : Prop} {b : Bool} {frame : Frame} {x : Evaluator → Eval α}
    (hx : Assembled S b frame x) (h : EvaluatorApproximates ev ev') : Approximates (x ev) (x ev') := by
  induction hx with
  | part _ => exact h _ _
  | bind _ _ ih ih' => exact ih.bind ih'
  | ite _ _ ih ih' => exact .ite ih ih'
  | iterate s _ ih => exact .iterate ih s
  | loopBody _ => exact loopBody_approximates h _ _
  | attempt span name _ _ => exact attempt_approximates h span _ _ name _
  | application span _ _ => exact application_approximates h span _ _ _
  | collected span _ ih => exact (Approximates.refl _).bind fun n => (ih n).bind fun _ => .refl _
  | bring span path items => exact bring_approximates h span path items _
  | _ => exact .refl _

/-- Evaluation of a node is monotone in the evaluator of its parts. -/
theorem step_approximates (h : EvaluatorApproximates ev ev') (node : Node) (frame : Frame) :
    Approximates (step ev node frame) (step ev' node frame) :=
  (assembled_step (S := False) (b := false) False.elim).approximates h

theorem collect_approximates (h : EvaluatorApproximates ev ev') (frame : Frame) (name : String)
    (conditions : List Node) (items : Ref) {rest rest' : Eval (Array Ref)} (hrest : Approximates rest rest') :
    Approximates (collect ev frame name conditions items rest) (collect ev' frame name conditions items rest') := by
  refine .iterate (fun state => (Approximates.refl _).bind fun item => ?_) _
  have hall : Approximates (allTrue ev frame conditions) (allTrue ev' frame conditions) :=
    (assembled_allTrue (S := False) (b := false) False.elim).approximates h
  cases item with
  | none => exact .refl _
  | some b =>
    exact (Approximates.refl _).bind fun _ => (hall.bind fun _ => .ite hrest (.refl _)).bind fun _ => .refl _

end Utterance.Eval

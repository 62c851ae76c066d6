import Utterance.Proofs.ReachOperations

/-!
# Evaluation only makes the changes of `Reaches`

The changes that calls, modules and nodes make, given those of the evaluator of their parts, and hence all changes
that the evaluation of a node can make (`evaluate_moves`). A call, a comprehension and a module work in a scope that
they make themselves.
-/

namespace Utterance

namespace Eval

variable {α β : Type} {f : α → Eval β} {k : Nat → Eval α} {inner : Frame} {args : List Ref} {v : World}

/-- What holds of the world that a computation leaves, if it ends. -/
def Leaves (P : World → Prop) (x : Eval α) (w : World) : Prop := Ends (x w) → P (after (x w))

variable {w : World} {frame : Frame} {x : Eval α}

theorem Leaves.bind {P : World → Prop} (hx : Reads x) (hw : P w)
    (hf : ∀ a, x w = .ok a w → Leaves P (f a) w) : Leaves P (x >>= f) w := by
  intro he
  have h := hx w
  cases hr : x w with
  | ok a v =>
    rw [hr] at h
    obtain rfl : v = w := h
    rw [bind_ok hr] at he ⊢
    exact hf a hr he
  | error s v =>
    rw [hr] at h
    obtain rfl : v = w := h
    rwa [bind_error hr]

theorem shown_reads (r : Ref) : Reads (shown r) := by
  refine Reads.bind (x := store) (fun _ => rfl) fun s => ?_
  unfold ofPrinting
  split
  · exact lift_reads _
  · exact .throw _

theorem prepare_reads (source : Source) : Reads (prepare source) := by
  unfold prepare
  split
  · exact .pure _
  · exact .throw _
  · split
    · exact .pure _
    · exact .pure _
    · exact .throw _
    · exact .throw _

theorem Reads.moves (h : Reads x) : Moves frame x := fun w _ => by
  rw [h w]
  exact .refl frame w

/-- An evaluator that makes only the changes of code in the frame. -/
def EvaluatorMoves (ev : Evaluator) : Prop := ∀ node frame, Moves frame (ev node frame)

variable {ev : Evaluator}

theorem newScope_moves (hk : Known frame w inner) (h : MovesAt (w.inside inner) (k w.scopeCount) w.newScope) :
    MovesAt frame (newScope >>= k) w :=
  fun he => .scope hk (h he)

theorem newScope_bind_moves (hk : Known frame w inner)
    (h : MovesAt (w.inside inner) (k w.scopeCount) w.newScope) (hf : ∀ a, Moves frame (f a)) :
    MovesAt frame (do f (← k (← newScope))) w := by
  rw [← bind_assoc]
  exact (newScope_moves hk h).bind fun a v _ => hf a v

theorem bindArgs_ok (frame : Frame) (names : List String) (args : List Ref) (w : World) :
    ∃ v, bindArgs frame names args w = .ok () v := by
  induction names generalizing args w with
  | nil => exact ⟨w, by rw [bindArgs]; · rfl
                        · simp⟩
  | cons name names ih =>
    cases args with
    | nil => exact ⟨w, rfl⟩
    | cons r args =>
      have hb : ∃ v, bind frame name (.value r) (w.modifyCell r fun c =>
          { c with frame := some frame }) = .ok () v := by
        unfold Eval.bind
        cases frame.scopes with
        | nil | cons => exact ⟨_, rfl⟩
      obtain ⟨v, hv⟩ := hb
      obtain ⟨u, hu⟩ := ih args v
      refine ⟨u, ?_⟩
      rw [bindArgs]
      exact (bind_ok (show frameIn r frame w = .ok r _ from rfl)).trans ((bind_ok hv).trans hu)

theorem checkArgs_cases (f : Ref) (callee : Cell) (params : List String) (args : List Ref) (w : World) :
    (params.length = args.length ∧ checkArgs f callee params args w = .ok () w) ∨
      params.length ≠ args.length ∧ ∃ s, checkArgs f callee params args w = .error s w := by
  have refused (n : Nat) (what : String) : ∃ s, (do
      error callee.start callee.stop (toString n ++ " too " ++ what ++ " args passed into " ++ (← shown f))
        callee.levels : Eval Unit) w = .error s w := by
    have hr := shown_reads f w
    cases hs : shown f w with
    | ok t v =>
      rw [hs] at hr
      obtain rfl : v = w := hr
      exact ⟨_, bind_ok hs⟩
    | error s v =>
      rw [hs] at hr
      obtain rfl : v = w := hr
      exact ⟨s, bind_error hs⟩
  unfold checkArgs
  split
  · next h => exact .inr ⟨by omega, refused _ _⟩
  · split
    · next h => exact .inr ⟨by omega, refused _ _⟩
    · next h h' => exact .inl ⟨by omega, rfl⟩

/-- A call is refused, without a change to any value, or inner. -/
theorem enterWith_cases (frame : Frame) {f : Ref} (b : Option Builtin) (name : String) (params : List String)
    (args : List Ref) (hf : (w.cell f).payload.isCallable = true) :
    (¬ ((w.cell f).frame.isSome ∧ params.length = args.length) ∧
      ∃ s v, enterWith f (w.cell f) b name params args w = .error s v ∧ (v = w ∨ v = w.newScope)) ∨
    ((w.cell f).frame.isSome ∧ params.length = args.length) ∧
      ∃ inner v, enterWith f (w.cell f) b name params args w = .ok inner v ∧
        Enters frame b inner args w v := by
  unfold enterWith enter
  cases ho : (w.cell f).frame with
  | none => exact .inl ⟨by simp, _, w, rfl, .inl rfl⟩
  | some outer =>
    generalize hn : (⟨⟨name, (w.cell f).start⟩ :: outer.levels, w.scopeCount :: outer.scopes⟩ : Frame) =
      inner
    have start (k : Frame → Eval Frame) : ((do
        let scope ← newScope
        return ⟨⟨name, (w.cell f).start⟩ :: outer.levels, scope :: outer.scopes⟩) >>= k) w =
          k inner w.newScope := by
      rw [← hn]
      rfl
    rw [start]
    rcases checkArgs_cases f (w.cell f) params args w.newScope with ⟨hl, hc⟩ | ⟨hl, s, hc⟩
    · obtain ⟨v, hv⟩ := bindArgs_ok inner params args w.newScope
      refine .inr ⟨⟨rfl, hl⟩, inner, _, (bind_ok hc).trans ((bind_ok hv).trans rfl), ?_⟩
      exact ⟨outer, _, params, v, .inr (.inr ⟨f, hf, ho⟩), hn.symm, hl, hv, rfl⟩
    · exact .inl ⟨fun h => hl h.2, s, _, bind_error hc, .inr rfl⟩

/-- A call that is refused makes at most a scope; one that is entered goes on from there. -/
theorem enterWith_moves {f : Ref} {b : Option Builtin} {name : String} {params : List String}
    {k : Frame → Eval α} (hf : (w.cell f).payload.isCallable = true)
    (hk : ∀ v inner, Enters frame b inner args w v → Leaves (Reaches frame w) (k inner) v) :
    MovesAt frame (enterWith f (w.cell f) b name params args >>= k) w := by
  intro he
  rcases enterWith_cases frame b name params args hf with ⟨-, s, v, hv, hw⟩ | ⟨-, inner, v, hv, hw⟩
  · rw [bind_error hv]
    rcases hw with rfl | rfl
    · exact .refl _ _
    · exact .scope (.inl rfl) (.refl _ _)
  · rw [bind_ok hv] at he ⊢
    exact hk v inner hw he

theorem runTree_ok {tree : Node} {r : Ref} (h : ev tree frame w = .ok r v) :
    runTree ev tree frame w = .ok (.ok (some r)) v :=
  tryCatch_ok (bind_ok h)

theorem ends_of_runTree {tree : Node} (h : Ends (runTree ev tree frame w)) : Ends (ev tree frame w) := by
  cases he : ev tree frame w with
  | ok r v => exact ends_ok r v
  | error s v =>
    refine ends_error.2 fun hs => h v ?_
    unfold runTree
    rw [tryCatch_error (bind_error he), hs]
    rfl

theorem after_runTree {tree : Node} : after (runTree ev tree frame w) = after (ev tree frame w) := by
  cases he : ev tree frame w with
  | ok r v => rw [runTree_ok he]; rfl
  | error s v =>
    unfold runTree
    rw [tryCatch_error (bind_error he)]
    cases s <;> rfl

theorem runTree_moves (h : EvaluatorMoves ev) (tree : Node) : Moves frame (runTree ev tree frame) := by
  refine ((h tree frame).bind fun _ => .pure _).tryCatch (fun s => ?_) rfl
  split
  · exact .pure _
  · exact .pure _
  · exact .pure _
  · exact .pure _
  · exact .throw _

theorem runText_moves (h : EvaluatorMoves ev) (source : Source) :
    Moves (programFrame source.name) (runText ev source) := by
  refine (prepare_reads source).moves.bind fun prepared => ?_
  cases prepared with
  | error d => exact .pure _
  | ok tree => exact runTree_moves h tree

/-- A script runs as a program of its name. -/
theorem callRun_reaches (h : EvaluatorMoves ev) (c : Call) (r : Ref) (w : World) :
    Leaves (fun v => ∃ name, Reaches (programFrame name) w v) (Call.run ev c r) w := by
  have hw : ∃ name, Reaches (programFrame name) w w := ⟨"", .refl _ w⟩
  refine .bind (c.string_reads r _) hw fun name _ => .bind (lift_reads _) hw fun shownName _ =>
    .bind (x := get) (fun _ => rfl) hw fun _ _ => ?_
  split
  · exact fun _ => hw
  · suffices hm : Moves (programFrame shownName) _ from fun he => ⟨shownName, hm w he⟩
    refine (record_moves rfl rfl).bind fun _ => (runText_moves h _).bind fun ending => ?_
    split
    · exact (record_moves rfl rfl).bind fun _ => (lift_moves _).bind fun _ => .throw _
    · exact .pure _

/-- What a built-in function does once its call was entered: four of them change their first argument, one runs a
script. -/
inductive BuiltinReaches (frame : Frame) (b : Builtin) (args : List Ref) (w : World) : World → Prop
  | plain {v : World} : Reaches frame w v → BuiltinReaches frame b args w v
  | elements {r : Ref} {rest : List Ref} (f : Array Ref → Array Ref) : b ∈ [Builtin.append, .pop, .extend] →
    args = r :: rest → BuiltinReaches frame b args w (w.modifyCell r (Cell.mapElements f))
  | erase {r : Ref} {rest : List Ref} {table : Nat} (key : Scalar) : b = .remove → args = r :: rest →
    (w.cell r).payload = .dict table → BuiltinReaches frame b args w (w.modifyTable table (·.erase key))
  | run {v : World} (name : String) : b = .run → Reaches (programFrame name) w v → BuiltinReaches frame b args w v

theorem builtin_reaches (h : EvaluatorMoves ev) (c : Call) (b : Builtin) (args : List Ref) (w : World) :
    Leaves (BuiltinReaches frame b args w) (builtin ev c b args) w := by
  by_cases hb : b.isPlain = true
  · exact fun ends => .plain (builtin_moves ev c hb args w ends)
  have hw : BuiltinReaches frame b args w w := .plain (.refl _ _)
  unfold builtin
  split
  case h_5 r value =>
    refine .bind (c.list_reads r _) hw fun es _ _ => ?_
    exact .elements (·.push value) (by simp) rfl
  case h_6 r index =>
    refine .bind (c.list_reads r _) hw fun es _ => .bind (c.number_reads index _) hw fun i _ => ?_
    split
    · exact fun _ => .elements _ (by simp) rfl
    · exact fun _ => hw
  case h_7 a more =>
    refine .bind (c.list_reads a _) hw fun es _ => .bind (c.list_reads more _) hw fun es' _ _ => ?_
    exact .elements (· ++ es') (by simp) rfl
  case h_11 r k =>
    refine .bind (x := cell r) (fun _ => rfl) hw fun cell hc => ?_
    split
    · next table hp =>
      have hd : (w.store.cell r).payload = .dict table := by injection hc with hc; rw [hc]; exact hp
      refine .bind (c.key_reads k) hw fun key _ => .bind (x := Eval.table table) (fun _ => rfl) hw fun t _ => ?_
      split
      · exact fun _ => .erase key rfl rfl hd
      · exact .bind (lift_reads _) hw fun _ _ _ => hw
    · refine .bind (x := store) (fun _ => rfl) hw fun s _ ends => .plain (Plain.movesAt (some c) ?_ ends)
      have hf : cell.FrameIn (Seen frame w) := by
        injection hc with hc
        exact fun _ hf => .inr ⟨r, (congrArg Cell.frame hc).trans hf⟩
      exact (Plain.ofPrinting _).bind fun _ => .ite (.alloc rfl hf) (.throw (.refused _ rfl))
    · exact fun _ => hw
  case h_12 r =>
    intro ends
    obtain ⟨name, hr⟩ := callRun_reaches h c r w ends
    exact .run name rfl hr
  case h_39 => exact fun _ => hw
  all_goals exact absurd rfl hb

theorem BuiltinReaches.reaches {b : Builtin} {u : World} (h : BuiltinReaches inner b args v u)
    (he : Enters frame (some b) inner args w v) : Reaches frame w u := by
  cases h with
  | plain h => exact .call he h
  | elements f hb ha => exact .elements f hb (ha ▸ he)
  | erase key hb ha hp => exact .erase key (ha ▸ hb ▸ he) hp
  | run name hb h => exact .run name (hb ▸ he) h

theorem runBody_moves (h : EvaluatorMoves ev) (body : Node) (frame : Frame) : Moves frame (runBody ev body frame) := by
  refine (h body frame).tryCatch (fun s => ?_) rfl
  split
  · exact .pure _
  · exact .throw _

theorem call_moves (h : EvaluatorMoves ev) (f : Ref) (args : List Ref) : Moves frame (call ev f args) := by
  intro w
  refine MovesAt.bind (cell_moves f w) fun callee v hc => ?_
  obtain ⟨rfl, rfl⟩ : w.cell f = callee ∧ w = v := by injection hc with h₁ h₂; exact ⟨h₁, h₂⟩
  split
  · next body hp =>
    exact enterWith_moves (by rw [hp]; rfl) fun v frame he ends => .call he (runBody_moves h body frame v ends)
  · next b hp =>
    exact enterWith_moves (by rw [hp]; rfl) fun v frame he ends =>
      (builtin_reaches h _ b args v ends).reaches he
  · exact Moves.throw _ w

theorem modifyLoader_moves {f : Loader LoadedModule → Loader LoadedModule}
    (hf : ∀ l, ∀ e ∈ (f l).cache, e ∈ l.cache ∨ e.2.scope :: e.2.outer = frame.scopes) :
    Moves frame (modifyLoader f) :=
  fun w _ => .loader frame w f (hf w.loader)

theorem endLoading_moves (path : String) : Moves frame (modifyLoader (·.endLoading path)) :=
  modifyLoader_moves fun _ _ => .inl

theorem runModule_moves (h : EvaluatorMoves ev) (name path text : String) :
    Moves frame (runModule ev name path text) := by
  refine (prepare_reads _).moves.bind fun prepared => ?_
  split
  · exact (endLoading_moves path).bind fun _ => (lift_moves _).bind fun _ => .pure _
  · intro w
    refine newScope_moves (.inr (.inl ⟨path, rfl⟩)) ?_
    refine Moves.bind (runTree_moves h _) (fun ending => (endLoading_moves path).bind fun _ => ?_) _
    split
    · exact (record_moves rfl rfl).bind fun _ => (lift_moves _).bind fun _ => .pure _
    · refine (modifyLoader_moves fun l e he => ?_).bind fun _ => (record_moves rfl rfl).bind fun _ => .pure _
      exact (List.mem_cons.1 he).elim (fun h => .inr (h ▸ rfl)) fun h => .inl ((List.mem_filter.1 h).1)

/-- What goes wrong with a module for good is an error of the program that brings it in. -/
abbrev moduleFault (name path : String) : Signal → Eval (Except String LoadedModule)
  | .fault f => do
    modifyLoader (·.endLoading path)
    record (.failed name)
    return .error ("Unexpected error loading module '" ++ name ++ "': " ++ f.message)
  | s => throw s

theorem loadModule_moves (h : EvaluatorMoves ev) (span : Span) (name path : String) (asking : Frame) :
    Moves frame (loadModule ev span name path asking) := by
  refine Moves.bind (x := loader) (fun w _ => .refl frame w) fun l => .ite (.throw _) (get_moves.bind fun w => ?_)
  split
  · exact .throw _
  · refine (record_moves rfl rfl).bind fun _ =>
      (modifyLoader_moves (f := (·.beginLoading path)) fun _ _ => .inl).bind fun _ =>
        .bind ((runModule_moves h name path _).tryCatch (fun s => ?_) rfl) fun result => ?_
    · split
      · exact (endLoading_moves path).bind fun _ => (record_moves rfl rfl).bind fun _ => .pure _
      · exact .throw _
    · split
      · exact .throw _
      · exact .pure _

theorem findModule_moves (h : EvaluatorMoves ev) (span : Span) (name : String) (asking : Frame) :
    Moves frame (findModule ev span name asking) := by
  refine get_moves.bind fun w => ?_
  split
  · exact .throw _
  · refine Moves.bind (x := loader) (fun w _ => .refl frame w) fun l => ?_
    split
    · exact .pure _
    · exact loadModule_moves h span name _ asking

theorem bindShared_moves (frame : Frame) (name : String) (value : Option Binding) :
    Moves frame (bindShared frame name value) := by
  cases value with
  | none => exact .pure _
  | some b => exact bind_moves name b

section

variable (name : String) (frame : Frame) (shared : List Entry)

theorem bindItems_moves (items : List Item) : Moves frame (bindItems name frame shared items) := by
  induction items with
  | nil => exact .pure _
  | cons item items ih =>
    unfold bindItems
    split
    · exact .throw _
    · exact (bindShared_moves frame _ _).bind fun _ => ih

theorem bindBrought_moves (items : Option (List Item)) : Moves frame (bindBrought name frame shared items) := by
  cases items with
  | none => exact .forM shared fun _ => bindShared_moves frame _ _
  | some items => exact bindItems_moves _ frame shared items

end

theorem bring_moves (h : EvaluatorMoves ev) (span : Span) (path : Token)
    (items : Option (List Item)) (frame : Frame) :
    Moves frame (bring ev span path items frame) :=
  (record_moves rfl rfl).bind fun _ => (findModule_moves h span path.text frame).bind fun _ =>
    (store_moves.bind fun _ => .pure _).bind fun shared =>
      (bindBrought_moves path.text frame shared items).bind fun _ => .pure _

theorem share_moves (names : List Token) (frame : Frame) : Moves frame (share names frame) := by
  unfold share
  split
  · exact .pure _
  · next n outer hs =>
    refine Moves.bind (x := do modifyScope n (·.beginSharing); record (.sharing n)) (fun w _ => .sharing w hs)
      fun _ => .bind ?_ fun _ => .pure _
    induction names with
    | nil => exact .pure _
    | cons t names ih =>
      refine (lookup_moves frame t.text).bind fun found => ?_
      split
      · exact .throw _
      · exact Moves.bind (x := do modifyScope n (·.addExport t.text); record (.shared n t.text))
          (fun w _ => .shared w t.text hs) fun _ => ih

theorem copyTo_moves (r : Ref) (span : Span) (frame : Frame) :
    Moves frame (do
      let r ← copy r
      let r ← place r span
      frameIn r frame) := by
  intro w _
  generalize hc : w.cell r = c
  have h := Reaches.alloc frame w { c with start := some span.start, stop := some span.stop, frame := some frame }
    (fun _ _ hf => .inl (Option.some.inj hf).symm) fun _ hf => .inl (Option.some.inj hf).symm
  have e : after ((do
      let r ← copy r
      let r ← place r span
      frameIn r frame : Eval Ref) w) =
      ((w.alloc c).modifyCell w.size fun c =>
        { c with start := some span.start, stop := some span.stop }).modifyCell w.size fun c =>
          { c with frame := some frame } := by
    rw [← hc]
    rfl
  rw [e, World.modifyCell_alloc]
  have e' := World.modifyCell_alloc w { c with start := some span.start, stop := some span.stop } fun c =>
    { c with frame := some frame }
  rw [e']
  exact h

theorem named_moves (span : Span) (name : String) (frame : Frame) : Moves frame (named span name frame) := by
  refine (lookup_moves frame name).bind fun found => ?_
  split
  · exact .throw _
  · exact .throw _
  · next r =>
    intro w
    refine MovesAt.bind (payload_moves r w) fun p v hp => ?_
    obtain ⟨rfl, rfl⟩ : (w.cell r).payload = p ∧ w = v := by injection hp with h₁ h₂; exact ⟨h₁, h₂⟩
    have reframed (hf : (w.cell r).payload.isFunction = false) :
        MovesAt frame (do let r ← place r span; frameIn r frame) w := by
      refine fun _ => (Reaches.place _ w r span).trans (.reframe frame _ r ?_)
      rw [World.cell_modifyCell]
      split
      · exact hf
      · exact hf
    split
    · exact place_moves r span w
    · next hl => exact reframed (by rw [hl]; rfl)
    · next hl => exact reframed (by rw [hl]; rfl)
    · next hl => exact reframed (by rw [hl]; rfl)
    · exact copyTo_moves r span frame w

theorem application_moves (h : EvaluatorMoves ev) (span : Span) (callee : Node) (args : List Node)
    (frame : Frame) : Moves frame (application ev span callee args frame) :=
  (h callee frame).bind fun _ => (copy_moves _).bind fun _ => (place_moves _ span).bind fun f =>
    (Moves.mapM args fun node => h node frame).bind fun rs => (call_moves h f rs).bind fun r =>
      copyTo_moves r span frame

theorem loopBody_moves (h : EvaluatorMoves ev) (frame : Frame) (body : Node) :
    Moves frame (loopBody ev frame body) := by
  refine ((h body frame).bind fun _ => .pure _).tryCatch (fun s => ?_) rfl
  split
  · exact .pure _
  · exact .pure _
  · exact .throw _

theorem bindName_moves (frame : Frame) (name : Option Token) (r : Ref) : Moves frame (bindName frame name r) := by
  cases name with
  | none => exact .pure _
  | some t => exact bind_moves t.text _

theorem attempt_moves (h : EvaluatorMoves ev) (span : Span) (body handler : Node) (name : Option Token)
    (frame : Frame) : Moves frame (attempt ev span body handler name frame) := by
  refine (h body frame).tryCatch (fun s => ?_) rfl
  cases s with
  | error d => exact (make_moves _ span).bind fun _ => (bindName_moves frame name _).bind fun _ => h handler frame
  | _ => exact .throw _

theorem index_moves (collection key : Node) (c k : Ref) : Moves frame (index collection key c k frame) := by
  intro w
  have at_cells (x : Cell → Cell → Eval Ref) (h : MovesAt frame (x (w.cell c) (w.cell k)) w) :
      MovesAt frame (do x (← cell c) (← cell k)) w := h
  refine at_cells (fun left right => _) ?_
  split
  · split
    · exact Moves.pure _ w
    · exact Moves.throw _ w
  · exact Moves.throw _ w
  · exact Plain.movesAt none (entry_plain (fun _ hf => .inr ⟨c, hf⟩) _ _)
  · exact Moves.throw _ w

/-- What is put together from evaluations of parts makes only the changes of code in the frame. -/
theorem Assembled.moves {S : Prop} {b : Bool} {x : Evaluator → Eval α} (hx : Assembled S b frame x)
    (h : EvaluatorMoves ev) : Moves frame (x ev) := by
  induction hx with
  | part _ => exact h _ _
  | primitive hx => exact Plain.moves hx.plain
  | bind _ _ ih ih' => exact ih.bind ih'
  | ite _ _ ih ih' => exact .ite ih ih'
  | iterate s _ ih => exact .iterate ih s
  | loopBody _ => exact loopBody_moves h _ _
  | attempt span name _ _ => exact attempt_moves h span _ _ name _
  | application span _ _ => exact application_moves h span _ _ _
  | collected span _ ih =>
    exact fun w => newScope_bind_moves (.inl rfl) (ih _ _) fun _ => make_moves _ span
  | make span _ => exact make_moves _ span
  | place r span => exact place_moves r span
  | bound name v => exact bind_moves name v
  | named span name => exact named_moves span name _
  | index collection key c k => exact index_moves collection key c k
  | bring span path items => exact bring_moves h span path items _
  | share names => exact share_moves names _
  | _ => exact .throw _

/-- The list is made after all else. -/
theorem MovesAt.make {x : Eval (Array Ref)} (hx : MovesAt inner x w) (span : Span) (frame : Frame) :
    Leaves (fun u => ∃ v, Reaches inner w v ∧ (u = v ∨ ∃ c, u = v.alloc c)) (do make (.list (← x)) span frame) w := by
  intro he
  cases hr : x w with
  | ok es v =>
    rw [MovesAt, hr] at hx
    rw [bind_ok hr]
    exact ⟨v, hx (ends_ok es v), .inr ⟨_, rfl⟩⟩
  | error s v =>
    rw [MovesAt, hr] at hx
    rw [bind_error hr] at he ⊢
    exact ⟨v, hx (ends_error.2 (ends_error.1 he)), .inl rfl⟩

/-- A comprehension works in a new scope inside those around it. -/
theorem comprehension_step_moves (h : EvaluatorMoves ev) (span : Span) (expression : Node)
    (clauses : List Clause) (frame : Frame) (w : World)
    (he : Ends (step ev (.comprehension span expression clauses) frame w)) :
    ∃ v, Reaches (w.inside frame) w.newScope v ∧
      (after (step ev (.comprehension span expression clauses) frame w) = v ∨
        ∃ c, after (step ev (.comprehension span expression clauses) frame w) = v.alloc c) :=
  MovesAt.make ((assembled_comprehension (S := False) (b := false) False.elim False.elim).moves h w.newScope) span frame
    he

theorem step_moves (h : EvaluatorMoves ev) (node : Node) (frame : Frame) : Moves frame (step ev node frame) :=
  (assembled_step (S := False) (b := false) False.elim).moves h

/-- Evaluation makes only the changes of code in the frame. -/
theorem evaluate_moves : EvaluatorMoves evaluate := by
  intro node frame w he
  refine evaluate_induction (P := fun _ frame w r => Reaches frame w (after r)) ?_ node frame w he
  intro ev ih node frame w hs
  exact step_moves (fun node frame w hw => ih node frame w hw) node frame w hs

end Eval

end Utterance

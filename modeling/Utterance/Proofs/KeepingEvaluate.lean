import Utterance.Proofs.Bindings
import Utterance.Proofs.Keeping
import Utterance.Session

/-!
# Evaluation keeps every contract

One lemma for each function of the evaluator: it keeps a contract if the evaluator of the parts does and loop control
is in its place. Hence evaluation keeps every contract (`evaluate_keeps`), and a contract that asks nothing of loop
control holds between the programs of a session (`holds_between`). The loading of a module is where the paths change
that are being loaded: whatever happens to the module, its path is taken away again (`loadModule_keeps`).
-/

namespace Utterance

open Eval

variable {callee : Cell} {f : Cell → Cell} {name : String} {p : Payload} {q : Ref} {source : Source} {tree : Node}
  {v w : World} {x : Eval α} {asking : Option String}

def Cell.IsPlaced (c : Cell) : Prop := c.start.isSome = true ∧ c.stop.isSome = true

private theorem isPlaced_modifyCell {r : Ref} (hf : ∀ c, c.IsPlaced → (f c).IsPlaced)
    (h : (w.cell q).IsPlaced) : ((w.modifyCell r f).cell q).IsPlaced := by
  rw [World.cell_modifyCell]
  split
  · exact hf _ h
  · exact h

theorem Enters.isPlaced {b : Option Builtin} {frame inner : Frame} {args : List Ref}
    (he : Enters frame b inner args w v) (h : (w.cell q).IsPlaced) : (v.cell q).IsPlaced := by
  obtain ⟨u, hu, rfl⟩ := he.entered
  have hc : (u.record (.called b inner args)).cell q = _ := hu.cell q
  rw [hc]
  split
  · exact h
  · exact h

theorem Reaches.isPlaced {frame : Frame} (hr : Reaches frame w v) (h : (w.cell q).IsPlaced) :
    (v.cell q).IsPlaced := by
  induction hr with
  | trans _ _ ih ih' => exact ih' (ih h)
  | alloc frame w c _ =>
    rw [World.cell_alloc, if_neg (Nat.ne_of_lt (w.lt_of_cell (Q := Cell.IsPlaced) (fun h => nomatch h.1) h))]
    exact h
  -- nothing else writes places, and this writes both ends
  | place => exact isPlaced_modifyCell (fun _ _ => ⟨rfl, rfl⟩) h
  | reframe => exact isPlaced_modifyCell (fun _ hc => hc) h
  | scope _ _ ih => exact ih h
  | call he _ ih | run _ he _ ih => exact ih (he.isPlaced h)
  | elements f _ he =>
    refine isPlaced_modifyCell (fun c hc => ?_) (he.isPlaced h)
    unfold Cell.mapElements
    split
    · exact hc
    · exact hc
  | erase key he _ => exact he.isPlaced h
  | _ => exact h

namespace Contract

variable {C : Contract} {α : Type} {P : Prop} {b : Bool} {stack : List String} {frame : Frame}

theorem plain_keeps (h : ∀ K, Plain K none x) : C.Keeps P b x :=
  .ofPlain none (h _) (fun _ => h _) fun _ hs => nomatch hs

private theorem alloc_keeps {c : Cell} (h : P → C.Sound c) : C.Keeps P b (alloc c) := by
  refine .update fun w => ⟨_, w.alloc c, rfl, rfl, rfl, rfl, fun hp hw r => ?_⟩
  rw [World.cell_alloc]
  split
  · exact h hp
  · exact hw r

private theorem copy_keeps (r : Ref) : C.Keeps P b (copy r) := .cell r fun _ => alloc_keeps fun h => h.2

private theorem modifyCell_keeps (r : Ref) (hf : P → ∀ c, C.Sound c → C.Sound (f c)) :
    C.Keeps P b (modifyCell r f) := by
  refine .update fun w => ⟨_, w.modifyCell r f, rfl, rfl, rfl, rfl, fun hp hw q => ?_⟩
  rw [World.cell_modifyCell]
  split
  · exact hf hp _ (hw q)
  · exact hw q

theorem place_keeps (r : Ref) (span : Span) : C.Keeps P b (place r span) := by
  refine Keeps.bind (modifyCell_keeps r fun _ c hc => ?_) fun _ => .pure _
  exact ⟨hc.frameIn, hc.contained⟩

private theorem modifyScope_keeps (n : Nat) (f : Scope Binding → Scope Binding) : C.Keeps P b (modifyScope n f) :=
  .update fun w => ⟨_, w.modifyScope n f, rfl, rfl, rfl, rfl, fun _ hw => hw⟩

private theorem newScope_keeps : C.Keeps P b newScope :=
  .update fun w => ⟨_, w.newScope, rfl, rfl, rfl, rfl, fun _ hw => hw⟩

theorem bind_keeps (frame : Frame) (name : String) (v : Binding) : C.Keeps P b (Eval.bind frame name v) := by
  unfold Eval.bind
  split
  · exact modifyScope_keeps _ _
  · exact .pure _

theorem record_keeps {e : Event} (h : e.isLoading = false) : C.Keeps P b (record e) :=
  fun _ _ _ hc => ⟨C.calm_of_cons hc, fun _ hh => ⟨hh.loading, C.noted h hh.state, hh.cells⟩⟩

private theorem bindShared_keeps (frame : Frame) (name : String) (value : Option Binding) :
    C.Keeps P b (bindShared frame name value) := by
  cases value with
  | none => exact .pure _
  | some v => exact bind_keeps frame name v

private theorem bindName_keeps (frame : Frame) (name : Option Token) (r : Ref) :
    C.Keeps P b (bindName frame name r) := by
  cases name with
  | none => exact .pure _
  | some t => exact bind_keeps frame t.text _

section

variable (hl : P → C.Knows frame)
include hl

private theorem make_keeps (hp : C.Demands P p.contained) (span : Span) : C.Keeps P b (make p span frame) :=
  alloc_keeps fun h => ⟨fun _ hf => Option.some.inj hf ▸ hl h, hp h⟩

private theorem makePlain_keeps (hp : p.isCallable = false) (span : Span) : C.Keeps P b (make p span frame) :=
  make_keeps hl (fun _ _ => Payload.contained_of_not_callable hp) span

private theorem frameIn_keeps (r : Ref) : C.Keeps P b (frameIn r frame) := by
  refine Keeps.bind (modifyCell_keeps r fun hp c hc => ?_) fun _ => .pure _
  exact ⟨fun _ hf => Option.some.inj hf ▸ hl hp, hc.contained⟩

theorem errorAt_keeps (span : Span) (details : String) : C.Keeps P b (errorAt span details frame : Eval α) :=
  .throw fun hp => C.report_placed details (C.placed_some _ _) (hl hp)

private theorem bindArgs_keeps (names : List String) (args : List Ref) : C.Keeps P b (bindArgs frame names args) := by
  induction names generalizing args with
  | nil => exact .pure _
  | cons name names ih =>
    cases args with
    | nil => exact .pure _
    | cons r args => exact (frameIn_keeps hl r).bind fun _ => (bind_keeps frame name _).bind fun _ => ih args

private theorem bindItems_keeps (name : String) (shared : List Entry)
    (items : List Item) : C.Keeps P b (bindItems name frame shared items) := by
  induction items with
  | nil => exact .pure _
  | cons item items ih =>
    unfold bindItems
    split
    · exact errorAt_keeps hl _ _
    · exact (bindShared_keeps frame _ _).bind fun _ => ih

private theorem share_keeps (names : List Token) : C.Keeps P b (share names frame) := by
  unfold share
  split
  · exact .pure _
  · refine (modifyScope_keeps _ _).bind fun _ => (record_keeps rfl).bind fun _ => .bind ?_ fun _ => .pure _
    induction names with
    | nil => exact .pure _
    | cons t names ih =>
      refine Keeps.bind (x := lookup frame t.text) (.read fun w => ⟨_, rfl⟩) fun found => ?_
      split
      · exact errorAt_keeps hl _ _
      · exact (modifyScope_keeps _ _).bind fun _ => (record_keeps rfl).bind fun _ => ih

private theorem copyTo_keeps (r : Ref) (span : Span) :
    C.Keeps P b (do
      let r ← copy r
      let r ← place r span
      frameIn r frame) :=
  (copy_keeps r).bind fun _ => (place_keeps _ span).bind fun _ => frameIn_keeps hl _

private theorem named_keeps (span : Span) (name : String) : C.Keeps P b (named span name frame) := by
  refine Keeps.bind (x := lookup frame name) (.read fun w => ⟨_, rfl⟩) fun found => ?_
  split
  · exact errorAt_keeps hl span _
  · exact .fault _
  · refine (plain_keeps fun _ => .payload _).bind fun p => ?_
    have reframed (r : Ref) : C.Keeps P b (do let r ← place r span; frameIn r frame) :=
      (place_keeps r span).bind fun _ => frameIn_keeps hl _
    split
    · exact place_keeps _ span
    · exact reframed _
    · exact reframed _
    · exact reframed _
    · exact copyTo_keeps hl _ span

private theorem index_keeps (collection key : Node) (c k : Ref) : C.Keeps P b (index collection key c k frame) := by
  refine .cell c fun left => .cell k fun right => ?_
  have hl' (hp : (P ∧ C.Sound left) ∧ C.Sound right) := hl hp.1.1
  split
  · split
    · exact .pure _
    · exact errorAt_keeps hl' _ _
  · exact errorAt_keeps hl' _ _
  · exact .ofPlain none (entry_plain (fun _ _ => trivial) right _)
      (fun hp => entry_plain hp.1.2.frameIn right _) fun _ hs => nomatch hs
  · exact errorAt_keeps hl' _ _

end

private theorem checkArgs_keeps (hc : P → C.Sound callee) (hp : P → C.placed callee.start callee.stop) (f : Ref)
    (params : List String) (args : List Ref) : C.Keeps P b (checkArgs f callee params args) := by
  have refused (n : Nat) (what : String) : C.Keeps P b (do
      error callee.start callee.stop (toString n ++ " too " ++ what ++ " args passed into " ++ (← shown f))
        callee.levels : Eval Unit) :=
    (plain_keeps fun _ => .shown f).bind fun _ =>
      .throw fun h => C.report_placed _ (hp h) (levels_of_frameIn (hc h).frameIn)
  exact .ite (refused _ _) (.ite (refused _ _) (.pure _))

/-- Arguments are bound in the frame of a call before the call is logged; where the log stays calm, the code of the
frame may run. -/
theorem bound_keeps {builtin : Option Builtin} {names : List String} {args : List Ref} {k : Eval α}
    (hl : ∀ log, C.calm (.called builtin frame args :: log) → P → C.Knows frame)
    (hk : C.Keeps (P ∧ C.Knows frame) b k) :
    C.Keeps P b (bindArgs frame names args >>= fun _ => record (.called builtin frame args) >>= fun _ => k) := by
  intro stack w he hc
  have hkeeps {Q : Prop} (hq : Q → P ∧ C.Knows frame) := ((bindArgs_keeps (fun h => (hq h).2) names args).bind fun _ =>
    (record_keeps (e := .called builtin frame args) rfl).bind fun _ => hk.mono hq) stack w he hc
  obtain ⟨v, hv⟩ := bindArgs_ok frame names args w
  have hcalm : C.calm (.called builtin frame args :: v.log) := by
    rw [bind_ok hv] at he hc
    exact (hk stack (v.record _) he hc).1
  exact ⟨(hkeeps False.elim).1, fun hp => (hkeeps (Q := True) fun _ => ⟨hp, hl _ hcalm hp⟩).2 trivial⟩

/-- A call that is entered goes on in a frame whose code may run. -/
theorem enterWith_keeps (hc : P → C.Sound callee) (hp : P → C.placed callee.start callee.stop) (f : Ref)
    (builtin : Option Builtin) (name : String) (params : List String) (args : List Ref) {k : Frame → Eval α}
    (hk : ∀ frame, C.Keeps (P ∧ C.Knows frame) b (k frame)) :
    C.Keeps P b (enterWith f callee builtin name params args >>= k) := by
  unfold enterWith enter
  cases hf : callee.frame with
  | none => exact .fault _
  | some outer =>
    simp only [bind_assoc, pure_bind]
    refine newScope_keeps.bind fun scope => ?_
    exact (checkArgs_keeps hc hp f params args).bind fun _ => bound_keeps (fun _ hcalm h =>
      C.levels_call name hcalm (hp h) ((hc h).frameIn outer hf)) (hk _)

/-- An evaluator that keeps the contract where loop control is in its place. -/
def EvaluatorKeeps (C : Contract) (ev : Evaluator) : Prop :=
  ∀ {P : Prop} {b : Bool} {node : Node} {frame : Frame}, (P → C.Knows frame) → C.Demands P (node.contained b) →
    C.Keeps P b (ev node frame)

variable {ev : Evaluator} {body : Node} {text path : String}

/-- The tree of a text has loop control in its place if the text has. -/
theorem prepare_keeps {k : Except Diagnostic Node → Eval α} (hs : C.Demands P source.contained)
    (he : ∀ d, C.Keeps P b (k (.error d)))
    (ht : ∀ tree, C.Demands P (tree.contained false) → C.Keeps P b (k (.ok tree))) :
    C.Keeps P b (prepare source >>= k) := by
  unfold prepare
  split
  · exact he _
  · exact .fault _
  · next lexemes hscan =>
    split
    · next tree hparse => exact ht tree (Source.contained_eq hscan hparse ▸ hs)
    · exact he _
    · exact .fault _
    · exact .throw fun _ => trivial

theorem knows_programFrame (name : String) : C.Knows (programFrame name) := C.levels_top name

section

variable (h : C.EvaluatorKeeps ev)
include h

section

variable (hl : P → C.Knows frame)
include hl

/-- A program handles loop control at its top, where none is left. -/
theorem runTree_keeps (ht : C.Demands P (tree.contained false)) : C.Keeps P b (runTree ev tree frame) := by
  refine ((h hl ht).bind fun _ => .pure _).tryCatch (fun s => ?_) ⟨rfl, rfl, rfl⟩
  cases s with
  | error | give | cut | skip => exact .pure _
  | _ => exact .throw fun _ => trivial

/-- The body of a function handles what it gives, and has no loop control left. -/
theorem runBody_keeps (hb : C.Demands P (body.contained false)) : C.Keeps P b (runBody ev body frame) := by
  refine (h hl hb).tryCatch (fun s => ?_) ⟨rfl, rfl, rfl⟩
  cases s with
  | give r => exact .pure _
  | _ => exact .throw fun hp => hp.2.of_false

private theorem loopBody_keeps (hn : C.Demands P (body.contained true)) : C.Keeps P b (loopBody ev frame body) := by
  refine ((h hl hn).bind fun _ => .pure _).tryCatch (fun s => ?_) ⟨rfl, rfl, rfl⟩
  cases s with
  | cut | skip => exact .pure _
  | _ => exact .throw fun hp => hp.2

private theorem attempt_keeps (span : Span) {handler : Node} (hb : C.Demands P (body.contained b))
    (hh : C.Demands P (handler.contained b)) (name : Option Token) :
    C.Keeps P b (attempt ev span body handler name frame) := by
  refine (h hl hb).tryCatch (fun s => ?_) ⟨rfl, rfl, rfl⟩
  cases s with
  | error d =>
    exact (makePlain_keeps (fun hp => hl hp.1) rfl span).bind fun _ => (bindName_keeps frame name _).bind fun _ =>
      h (fun hp => hl hp.1) fun hp => hh hp.1
  | _ => exact .throw fun hp => hp.2

end

private theorem runText_keeps (hs : C.Demands P source.contained) : C.Keeps P b (runText ev source) :=
  prepare_keeps hs (fun _ => .pure _) fun _ ht => runTree_keeps h (fun _ => knows_programFrame _) ht

end

/-! ### Built-in functions -/

section

variable {c : Call} (hc : P → C.placed c.start c.stop ∧ C.Knows c.frame)

include hc

theorem site_keeps (h : ∀ K, Plain K (some c) x) : C.Keeps P b x :=
  .ofPlain (some c) (h _) (fun _ => h _) fun _ hs => Option.some.inj hs ▸ hc

theorem refuse_keeps (details : String) : C.Keeps P b (c.refuse details : Eval α) :=
  site_keeps hc fun _ => Looks.plain

omit hc in
theorem setElements_keeps (r : Ref) (f : Array Ref → Array Ref) : C.Keeps P b (Call.setElements r f) := by
  refine modifyCell_keeps r fun _ cell hcell => ?_
  split
  · exact ⟨hcell.frameIn, fun _ => rfl⟩
  · exact hcell

private theorem append_keeps (r v : Ref) : C.Keeps P b (c.append r v) :=
  (site_keeps hc fun _ => Looks.plain).bind fun _ => (setElements_keeps r _).bind fun _ => .pure _

private theorem pop_keeps (r i : Ref) : C.Keeps P b (c.pop r i) := by
  refine (site_keeps hc fun _ => Looks.plain).bind fun es =>
    (site_keeps hc fun _ => Looks.plain).bind fun n => ?_
  split
  · exact (setElements_keeps r _).bind fun _ => .pure _
  · exact refuse_keeps hc _

private theorem extend_keeps (r more : Ref) : C.Keeps P b (c.extend r more) :=
  (site_keeps hc fun _ => Looks.plain).bind fun _ => (site_keeps hc fun _ => Looks.plain).bind fun _ =>
    (setElements_keeps r _).bind fun _ => .pure _

omit hc in
theorem modifyTable_keeps (n : Nat) (f : Table → Table) : C.Keeps P b (modifyTable n f) :=
  .update fun w => ⟨_, w.modifyTable n f, rfl, rfl, rfl, rfl, fun _ hw => hw⟩

private theorem remove_keeps (r k : Ref) : C.Keeps P b (c.remove r k) := by
  refine .cell r fun cell => ?_
  have hc' (h : P ∧ C.Sound cell) := hc h.1
  split
  · refine (site_keeps hc' fun _ => Looks.plain).bind fun key => (plain_keeps fun _ => .table _).bind fun t => ?_
    split
    · exact (modifyTable_keeps _ _).bind fun _ => .pure _
    · exact (plain_keeps fun _ => .lift _).bind fun _ => refuse_keeps hc' _
  · refine (plain_keeps fun _ => .store).bind fun _ => (plain_keeps fun _ => .ofPrinting _).bind fun _ => .ite ?_ ?_
    · exact alloc_keeps fun h => ⟨h.2.frameIn, fun _ => rfl⟩
    · exact refuse_keeps hc' _
  · exact refuse_keeps hc' _

omit hc in
theorem ran_keeps (h : C.Keeps (P ∧ (C.strict → source.contained = true)) b x) :
    C.Keeps P b (record (.ran source) >>= fun _ => x) := by
  intro stack w he hcalm
  obtain ⟨hv, hk⟩ := h stack (w.record (.ran source)) he hcalm
  refine ⟨C.calm_of_cons hv, fun hp hh => hk ⟨hp, fun hs => C.contained_of_ran hs hv⟩ ?_⟩
  exact ⟨hh.loading, C.noted rfl hh.state, hh.cells⟩

private theorem run_keeps (h : C.EvaluatorKeeps ev) (r : Ref) : C.Keeps P b (Call.run ev c r) := by
  refine (site_keeps hc fun _ => Looks.plain).bind fun name => (plain_keeps fun _ => .lift _).bind fun shownName =>
    Keeps.bind (.read fun w => ⟨w, rfl⟩) fun w => ?_
  split
  · exact refuse_keeps hc _
  · refine ran_keeps ((runText_keeps h fun hp => hp.2).bind fun ending => ?_)
    split
    · exact (record_keeps rfl).bind fun _ => (plain_keeps fun _ => .lift _).bind fun _ =>
        refuse_keeps (fun hp => hc hp.1) _
    · exact .pure _

private theorem builtin_keeps (h : C.EvaluatorKeeps ev) (f : Builtin) (args : List Ref) :
    C.Keeps P b (builtin ev c f args) := by
  by_cases hf : f.isPlain = true
  · exact site_keeps hc fun _ => builtin_plain ev c hf args
  unfold builtin
  split
  case h_5 r v => exact append_keeps hc r v
  case h_6 r i => exact pop_keeps hc r i
  case h_7 r more => exact extend_keeps hc r more
  case h_11 r k => exact remove_keeps hc r k
  case h_12 r => exact run_keeps hc h r
  case h_39 => exact .pure _
  all_goals exact absurd rfl hf

end

/-! ### Modules -/

theorem Holds.endLoading (h : C.Holds stack w) (path : String) :
    C.Holds (stack.erase path) { w with loader := w.loader.endLoading path } :=
  ⟨congrArg (List.erase · path) h.loading, C.ended path h.state, h.cells⟩

private theorem erase_last (h : path ∉ stack) : (stack ++ [path]).erase path = stack := by
  rw [List.erase_append_right _ h, List.erase_cons_head, List.append_nil]

/-- How the text of a module ends, begun while the paths `stack` were being loaded: with a result or a report, and
then the path is not being loaded any more, or with a fault, and then it may still be. -/
def ModuleEnded (C : Contract) (stack : List String) (path : String) : Outcome α → Prop
  | .ok _ w => C.Holds stack w
  | .error (.fault _) w => C.Holds stack w ∨ C.Holds (stack ++ [path]) w
  | .error s w => s.isFinal = true ∧ ∃ left, C.Holds left w

theorem runTree_error {s : Signal} (h : runTree ev tree frame w = .error s v) :
    (∃ f, s = .fault f) ∨ s.isFinal = true := by
  cases hr : ev tree frame w with
  | ok r u =>
    rw [runTree_ok hr] at h
    cases h
  | error s' u =>
    unfold runTree at h
    rw [tryCatch_error (bind_error hr)] at h
    cases s' with
    | fault f => cases h; exact .inl ⟨f, rfl⟩
    | exit | interrupt | exhausted => cases h; exact .inr rfl
    | _ => cases h

/-- A module that goes wrong is not being loaded any more when its report is made. -/
theorem failed_runs (report : String) (hpath : P → path ∉ stack) (d : Diagnostic) (w : World) :
    C.RunsAt P (stack ++ [path]) (C.ModuleEnded stack path) (do
      modifyLoader (·.endLoading path)
      return .error (report ++ (← lift d.render)) : Eval (Except String LoadedModule)) w := by
  have hend (hp : P) (hh : C.Holds (stack ++ [path]) w) :
      C.Holds stack { w with loader := w.loader.endLoading path } := by
    have h := hh.endLoading path
    rwa [erase_last (hpath hp)] at h
  cases hd : d.render with
  | ok text => exact fun _ hc => ⟨hc, hend⟩
  | error f => exact fun _ hc => ⟨hc, fun hp hh => .inl (hend hp hh)⟩

private theorem executed_runs {report : String} (hpath : P → path ∉ stack) (d : Diagnostic) (w : World) :
    C.RunsAt P (stack ++ [path]) (C.ModuleEnded stack path) (do
      modifyLoader (·.endLoading path)
      record (.failed name)
      return .error (report ++ (← lift d.render)) : Eval (Except String LoadedModule)) w := by
  intro he hc
  obtain ⟨hv, hk⟩ := failed_runs report hpath d (w.record (.failed name)) he hc
  exact ⟨C.calm_of_cons hv, fun hp hh => hk hp ⟨hh.loading, C.noted rfl hh.state, hh.cells⟩⟩

private theorem begun_keeps
    (hfound : findModule? w.files name asking = some path) (hnot : w.loader.isLoading path = false)
    (hcached : w.loader.isCached path = false)
    (hx : C.RunsAt (P ∧ path ∉ stack ∧ (C.strict → Source.contained ⟨path, text⟩ = true)) (stack ++ [path])
      (C.Ended stack b) x { w.record (.begun ⟨path, text⟩ w.loader) with loader := w.loader.beginLoading path }) :
    C.KeepsAt P b stack (do record (.begun ⟨path, text⟩ w.loader); modifyLoader (·.beginLoading path); x) w := by
  intro he hc
  obtain ⟨hv, hk⟩ := hx he hc
  refine ⟨C.calm_of_cons hv, fun hp hh => hk ⟨hp, ?_, fun hs => C.contained_of_begun hs hv⟩ ?_⟩
  · intro hmem
    rw [Loader.isLoading, hh.loading, List.contains_iff_mem.2 hmem] at hnot
    cases hnot
  · exact ⟨congrArg (· ++ [path]) hh.loading, C.begun hfound hnot hcached hh.state, hh.cells⟩

section

variable (h : C.EvaluatorKeeps ev)
include h

theorem call_keeps {f : Ref} (args : List Ref) (hp : P → C.placed (w.cell f).start (w.cell f).stop) :
    C.KeepsAt P b stack (call ev f args) w := by
  have known {x : Eval Ref} (hx : C.Keeps (P ∧ C.Sound (w.cell f)) b x) : C.KeepsAt P b stack x w := by
    intro he hcalm
    obtain ⟨hw, hk⟩ := hx stack w he hcalm
    exact ⟨hw, fun h hh => hk ⟨h, hh.cells f⟩ hh⟩
  refine KeepsAt.read_bind (x := cell f) rfl ?_
  split
  · next name params body hbody =>
    refine known (enterWith_keeps (fun h => h.2) (fun h => hp h.1) f none name params args fun frame =>
      runBody_keeps h (fun h => h.2) fun hc hs => ?_)
    have hcontained := hc.1.2.contained hs
    rwa [hbody] at hcontained
  · next g _ =>
    exact known (enterWith_keeps (fun h => h.2) (fun h => hp h.1) f (some g) g.name g.params args fun frame =>
      builtin_keeps (fun hc => ⟨hp hc.1.1, hc.2⟩) h g args)
  · exact known (.throw fun hc => C.report_operand _ _ .illegal (levels_of_frameIn hc.2.frameIn))

private theorem runModule_runs (name : String) (hpath : P → path ∉ stack)
    (hs : C.Demands P (Source.contained ⟨path, text⟩))
    (w : World) :
    C.RunsAt P (stack ++ [path]) (C.ModuleEnded stack path) (runModule ev name path text) w := by
  unfold runModule prepare
  split
  · exact failed_runs _ hpath _ w
  · -- a text that cannot be scanned fails while its path is still being loaded
    exact fun _ hc => ⟨hc, fun _ hh => .inr hh⟩
  · next lexemes hscan =>
    split
    · next tree hparse =>
      rw [Source.contained_eq hscan hparse] at hs
      rw [pure_bind]
      refine RunsAt.bind (b := false) (newScope_keeps _ w) (fun _ _ hr => nomatch hr) fun scope v _ => ?_
      have hknows : C.Knows ⟨[⟨path, none⟩], [scope, Store.globalScope]⟩ := C.levels_top path
      refine RunsAt.bind (b := false) (runTree_keeps h (fun _ => hknows) hs _ v) (fun s u hr hu => ?_)
        fun ending u _ => ?_
      · obtain ⟨-, left, hleft, heq⟩ := hu
        rcases runTree_error hr with ⟨f, rfl⟩ | hf
        · exact .inr (heq rfl ▸ hleft)
        · cases s with
          | fault => cases hf
          | _ => exact ⟨hf, left, hleft⟩
      · cases ending with
        | error d => exact executed_runs hpath d u
        | ok result =>
          refine fun _ hc => ⟨C.calm_of_cons hc, fun hp hh => ⟨?_, ?_, hh.cells⟩⟩
          · exact (congrArg (List.erase · path) hh.loading).trans (erase_last (hpath hp))
          · exact C.completed _ (by rw [hh.loading]; simp) hh.state
    · exact failed_runs _ hpath _ w
    · exact fun _ hc => ⟨hc, fun _ hh => .inr hh⟩
    · exact fun he => absurd rfl (he w)

/-- Whatever a module does, its path is not being loaded any more afterwards. -/
theorem loaded_runs (hpath : P → path ∉ stack) (hs : C.Demands P (Source.contained ⟨path, text⟩)) (w : World) :
    C.RunsAt P (stack ++ [path]) (C.Ended stack b)
      (tryCatch (runModule ev name path text) (moduleFault name path)) w := by
  have hr := runModule_runs h name hpath hs w
  intro he hc
  cases hx : runModule ev name path text w with
  | ok result v =>
    rw [tryCatch_ok hx] at hc ⊢
    unfold RunsAt at hr
    rw [hx] at hr
    exact hr (ends_ok _ _) hc
  | error s v =>
    unfold RunsAt at hr
    rw [hx] at hr
    rw [tryCatch_error hx] at he hc ⊢
    cases s with
    | fault f =>
      obtain ⟨hw, hk⟩ := hr (ends_error.2 (by simp)) (C.calm_of_cons hc)
      refine ⟨hw, fun hp hh => ?_⟩
      have hend : C.Holds stack { v with loader := v.loader.endLoading path } := by
        rcases hk hp hh with hv | hv
        · have hend := hv.endLoading path
          rwa [List.erase_of_not_mem (hpath hp)] at hend
        · have hend := hv.endLoading path
          rwa [erase_last (hpath hp)] at hend
      exact ⟨hend.loading, C.noted rfl hend.state, hend.cells⟩
    | exit | interrupt | exhausted =>
      obtain ⟨hw, hk⟩ := hr (ends_error.2 (ends_error.1 he)) hc
      refine ⟨hw, fun hp hh => ?_⟩
      obtain ⟨-, left, hleft⟩ := hk hp hh
      exact ⟨trivial, left, hleft, fun hn => nomatch hn⟩
    | _ =>
      obtain ⟨hw, hk⟩ := hr (ends_error.2 (ends_error.1 he)) hc
      exact ⟨hw, fun hp hh => nomatch (hk hp hh).1⟩

variable (hl : P → C.Knows frame) (span : Span)
include hl

private theorem loadModule_keeps (name : String) (hfound : findModule? w.files name asking = some path)
    (hcached : w.loader.isCached path = false) : C.KeepsAt P b stack (loadModule ev span name path frame) w := by
  refine KeepsAt.read_bind (x := loader) rfl ?_
  split
  · refine Keeps.throw ?_ stack w
    exact fun _ => C.report_circular _ _ _ _
  next hloading =>
  refine KeepsAt.read_bind (x := get) rfl ?_
  split
  · exact errorAt_keeps hl span _ stack w
  refine begun_keeps hfound (by simpa using hloading) hcached ?_
  refine RunsAt.bind (loaded_runs h (fun hp => hp.2.1) (fun hp => hp.2.2) _) (fun _ _ _ hs => hs) fun result u _ => ?_
  cases result with
  | error report => exact errorAt_keeps (fun hp => hl hp.1) span report stack u
  | ok m => exact Keeps.pure m stack u

theorem findModule_keeps (name : String) : C.Keeps P b (findModule ev span name frame) := by
  intro stack w
  refine KeepsAt.read_bind (x := get) rfl ?_
  split
  · refine Keeps.throw ?_ stack w
    exact fun _ => C.report_missing _ _ _ _
  next path hfound =>
  refine KeepsAt.read_bind (x := loader) rfl ?_
  split
  · exact Keeps.pure _ stack w
  · next hget => exact loadModule_keeps h hl span name hfound (by rw [Loader.isCached, hget]; rfl)

theorem bring_keeps (path : Token) (items : Option (List Item)) : C.Keeps P b (bring ev span path items frame) := by
  refine (record_keeps rfl).bind fun _ => (findModule_keeps h hl span path.text).bind fun m =>
    Keeps.bind ((plain_keeps fun _ => .store).bind fun _ => .pure _) fun shared => .bind ?_ fun _ => .pure _
  cases items with
  | none => exact .forM shared fun _ => bindShared_keeps frame _ _
  | some items => exact bindItems_keeps hl _ shared items

/-- The value that is called was seen at the call, and stays so while the arguments are evaluated. -/
theorem application_keeps (hm : EvaluatorMoves ev) {callee : Node} {args : List Node}
    (hf : C.Demands P (callee.contained b)) (ha : C.Demands P (Node.allContained args b)) : C.Keeps P b
    (application ev span callee args frame) := by
  refine (h hl hf).bind fun f stack w => ?_
  have hargs : C.Keeps P b (args.mapM (ev · frame)) := .mapM args fun node hn => h hl (ha.mem hn)
  refine KeepsAt.bind (copy_keeps f stack w) fun f' v hcopy =>
    KeepsAt.bind (place_keeps f' span stack v) fun q u hplace => ?_
  refine KeepsAt.bind (hargs stack u) fun rs u' hrs => KeepsAt.bind (call_keeps h rs fun _ => ?_) fun r v' _ =>
    copyTo_keeps hl r span stack v'
  -- the place of the call is written to a copy, and no argument takes it away
  have hplaced : (u.cell q).IsPlaced := by
    injection hcopy with hf' hv
    injection hplace with hq hu
    subst hf' hv hq hu
    have hcell := World.modifyCell_alloc w (w.cell f) fun c =>
      { c with start := some span.start, stop := some span.stop }
    show (((w.alloc (w.cell f)).modifyCell w.size _).cell w.size).IsPlaced
    rw [hcell, World.cell_alloc, if_pos rfl]
    exact ⟨rfl, rfl⟩
  have hreach := Moves.mapM args (fun node => hm node frame) u (by rw [hrs]; exact ends_ok _ _)
  rw [hrs] at hreach
  obtain ⟨hstart, hstop⟩ := hreach.isPlaced hplaced
  obtain ⟨start, hstart⟩ := Option.isSome_iff_exists.1 hstart
  obtain ⟨stop, hstop⟩ := Option.isSome_iff_exists.1 hstop
  rw [show (u'.cell q).start = _ from hstart, show (u'.cell q).stop = _ from hstop]
  exact C.placed_some start stop

end

/-- What is put together from evaluations of parts keeps the contract. -/
theorem Assembled.keeps {x : Evaluator → Eval α} (hx : Assembled (P ∧ C.strict) b frame x)
    (h : C.EvaluatorKeeps ev) (hm : EvaluatorMoves ev) (hl : P → C.Knows frame) : C.Keeps P b (x ev) := by
  have demands {check : Bool} (h : Asks (P ∧ C.strict) check) : C.Demands P check := fun hp hs => h ⟨hp, hs⟩
  induction hx with
  | part hn => exact h hl (demands hn)
  | primitive hx => exact plain_keeps hx.plain
  | bind _ _ ih ih' => exact (ih hl).bind fun a => ih' a hl
  | ite _ _ ih ih' => exact .ite (ih hl) (ih' hl)
  | iterate s _ ih => exact .iterate (fun s => ih s hl) s
  | loopBody hn => exact loopBody_keeps h hl (demands hn)
  | attempt span name hb hh => exact attempt_keeps h hl span (demands hb) (demands hh) name
  | application span hf ha => exact application_keeps h hl span hm (demands hf) (demands ha)
  | collected span _ ih => exact newScope_keeps.bind fun n => (ih n hl).bind fun _ => makePlain_keeps hl rfl span
  | make span hp => exact make_keeps hl (demands hp) span
  | place r span => exact place_keeps r span
  | bound name v => exact bind_keeps _ name v
  | named span name => exact named_keeps hl span name
  | index collection key c k => exact index_keeps hl collection key c k
  | bring span path items => exact bring_keeps h hl span path items
  | share names => exact share_keeps hl names
  | errorAt span details => exact errorAt_keeps hl span details
  | give r => exact .throw fun _ => trivial
  | cut hb | skip hb => exact .throw (demands hb)

/-- Evaluation keeps every contract where loop control is in its place. -/
theorem evaluate_keeps (C : Contract) : C.EvaluatorKeeps evaluate := by
  intro P b node frame hl hn stack w he
  -- a call needs that its arguments leave places alone, so reachability goes along
  have key := evaluate_induction (P := fun node frame w r => Reaches frame w (after r) ∧
    ∀ (P : Prop) b stack, (P → C.Knows frame) → C.Demands P (node.contained b) → C.calm (after r).log →
      C.calm w.log ∧ (P → C.Holds stack w → C.Ended stack b r)) ?_ node frame w he
  · exact key.2 P b stack hl hn
  · intro ev ih node frame w hs
    have hm : EvaluatorMoves ev := fun node frame w he => (ih node frame w he).1
    have hk : C.EvaluatorKeeps ev := fun hl hn stack w he => (ih _ _ w he).2 _ _ stack hl hn
    refine ⟨step_moves hm node frame w hs, fun P b stack hl hn => ?_⟩
    exact Assembled.keeps (assembled_step fun h => hn h.1 h.2) hk hm hl stack w hs

end Contract

/-! ### Sessions -/

namespace Session

/-- The worlds between the programs of a session. A program that fails for good ends, but not the session; `exit` and
an interrupt end it. -/
inductive Between (files : Files) (input : String) : World → Prop
  | start : Between files input (start files input)
  | run {w v name text ending} : Between files input w → run name text w = .ok ending v → Between files input v
  | fault {w v name text f} : Between files input w → Session.run name text w = .error (.fault f) v →
    Between files input v

end Session

namespace Contract

variable {C : Contract} {files : Files}

theorem holds_start (input : String) (h : C.state files .empty []) : C.Holds [] (Session.start files input) where
  loading := rfl
  state := h
  cells := World.cell_initial ⟨fun _ hf => (nomatch hf), fun _ => rfl⟩ fun c hc => by
    have given : ∀ c ∈ Store.givenCells, c.frame = none ∧ c.payload.contained = true := by decide +kernel
    obtain ⟨hf, hp⟩ := given c hc
    refine ⟨fun _ hs => ?_, fun _ => hp⟩
    rw [hf] at hs
    cases hs

theorem session_keeps {P : Prop} {b : Bool} {text : String} (hs : C.Demands P (Source.contained ⟨name, text⟩)) :
    C.Keeps P b (Session.run name text) :=
  runText_keeps (evaluate_keeps C) hs

/-- A contract that asks nothing of loop control holds between the programs of a session. -/
theorem holds_between {input : String} (hs : ¬ C.strict) (hc : ∀ log, C.calm log)
    (h : C.state files .empty []) (hw : Session.Between files input w) : C.Holds [] w := by
  have keeps {w : World} (name text : String) (he : Ends (Session.run name text w)) (hh : C.Holds [] w) :
      C.Ended [] false (Session.run name text w) :=
    (session_keeps (P := True) (fun _ h => absurd h hs) [] w he (hc _)).2 trivial hh
  induction hw with
  | start => exact holds_start input h
  | @run w v name text ending _ hr ih =>
    have hk := keeps name text (by rw [hr]; exact ends_ok _ _) ih
    rwa [hr] at hk
  | @fault w v name text f _ hr ih =>
    have hk := keeps name text (by rw [hr]; exact ends_error.2 (by simp)) ih
    rw [hr] at hk
    obtain ⟨-, left, hleft, heq⟩ := hk
    exact heq rfl ▸ hleft

end Contract

end Utterance

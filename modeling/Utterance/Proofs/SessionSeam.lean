import Utterance.Proofs.MatchingEvaluate
import Utterance.Proofs.ProgramSeam
import Utterance.Session

/-!
# Programs one after the other

A session does the same with two programs one after the other as with the program that has both, with a line end
between them (`Session.run_append_line`), as long as neither of them brings a module in or runs a script. The tokens
and statements of the one program are those of the two (`Token.scan_seam`, `Grammar.parse_append_line`); the worlds
are matched in between, where the first program makes a value of its own for its result (`Matching.Worlds.seam`).

Worlds are matched only if they are closed (`World.Closed`). A session starts in such a world
(`Session.closed_start`), and a run that brings nothing in leaves one (`Session.closed_run`), which follows from
matching a world with itself.
-/

namespace Utterance

open Eval Matching Event List Store Token

variable {frame' : Frame} {r : Ref} {s : Store}

def Payload.refs : Payload → List Ref
  | .list es => es.toList
  | .tuple es => es
  | _ => []

/-- Every reference is one to a value that exists, and so do the values that exist from the start. -/
structure World.Closed (w : World) : Prop where
  given : 3 ≤ w.size
  cells : ∀ r, ∀ q ∈ (w.cell r).payload.refs, q < w.size
  tables : ∀ n, ∀ e ∈ w.store.table n, e.2 < w.size
  scopes : ∀ n, ∀ b ∈ (w.scope n).bindings, ∀ r, b.2 = some (.value r) → r < w.size

namespace Session

/-- Between two worlds, no module was brought in and no script was run. -/
def Quiet (w w' : World) : Prop := ∃ happened, w'.log = happened ++ w.log ∧ ∀ e ∈ happened, e.isNoise = false

/-- How a run ends, as a user is told. -/
inductive Report where
  | finished
  /-- A value was given, or a loop was left, at the top of the program. -/
  | stopped
  | error (title details : String)
  | fault (f : Fault)
  | exit
  | interrupt
  | endless

def report : Outcome Ending → Report
  | .ok (.ok (some _)) _ => .finished
  | .ok (.ok none) _ => .stopped
  | .ok (.error d) _ => .error d.title d.details
  | .error (.fault f) _ => .fault f
  | .error .exit _ => .exit
  | .error .interrupt _ => .interrupt
  | .error (.error d) _ => .error d.title d.details
  | .error (.give _) _ | .error .cut _ | .error .skip _ => .stopped
  | .error .exhausted _ => .endless

def printedBinding (s : Store) : Binding → Option (Except Fault String)
  | .value r => s.printed .quoted r
  | .member m => some (m.printed .quoted)

/-- What a user can see of a world: what was printed, what is left to read, and the global names with the printed
forms of their values. -/
def view (w : World) : String × List Char × List (String × Option (Option (Except Fault String))) :=
  (w.out, w.input, (w.scope globalScope).bindings.map fun b => (b.1, b.2.map (printedBinding w.store)))

end Session

section

variable {T : Ref → Ref → Prop}

theorem Payload.Alike.refl (p : Payload) (h : ∀ q ∈ p.refs, T q q) : p.Alike T p := by
  cases p with
  | list es => exact .list (List.forall₂_same.2 h)
  | tuple es => exact .tuple (List.forall₂_same.2 h)
  | function name params body => exact .function name params (.refl body)
  | _ => constructor

end

/-! ### Matchings of closed worlds -/

namespace Matching

variable {w v v' : World}

def plain (w : World) : Matching where
  values := .refl
  scopes := .refl
  apart := none
  kept := []
  logged := w.log.length
  logged' := w.log.length
  given _ _ := rfl
  global := rfl
  inner _ h := nomatch h
  alone _ h := nomatch h

private theorem plain_frames (f : Frame) : (plain w).Frames f f := ⟨List.forall₂_same.2 fun _ _ => rfl, rfl⟩

private theorem plain_framed (p : Payload) (o : Option Frame) : (plain w).Framed p o o := by
  cases o with
  | none => exact .none
  | some f => exact .some (plain_frames f)

theorem worlds_of_closed (h : w.Closed) : (plain w).Worlds w w where
  given := h.given
  sized := ⟨w.size, (Nat.zero_add _).symm, (Nat.zero_add _).symm⟩
  spread := ⟨w.scopeCount, (Nat.zero_add _).symm, (Nat.zero_add _).symm⟩
  cells := by
    rintro r _ ⟨-, rfl⟩
    exact ⟨.refl _ fun q hq => ⟨h.cells _ q hq, rfl⟩, plain_framed _ _⟩
  kept _ he := nomatch he
  tables := ⟨rfl, fun n => List.forall₂_same.2 fun e he => ⟨rfl, h.tables n e he, rfl⟩⟩
  scopes := by
    rintro n _ rfl
    have hnone : ∀ x, (plain w).hides n x = false := fun _ => rfl
    rw [Scope.without_of_none hnone]
    refine ⟨List.forall₂_same.2 fun b hb => ⟨rfl, ?_⟩, rfl⟩
    obtain ⟨name, b⟩ := b
    cases b with
    | none => exact .none
    | some b =>
      cases b with
      | value r => exact .some (.value ⟨h.scopes n _ hb r rfl, rfl⟩)
      | member m => exact .some (.member m)
  own _ ha := nomatch ha
  out := rfl
  input := rfl
  files := rfl
  loader := ⟨rfl, List.forall₂_same.2 fun _ _ => ⟨rfl, List.forall₂_same.2 fun _ _ => rfl, fun _ ha => nomatch ha⟩⟩
  noise := rfl
  logged := Nat.le_refl _
  logged' := Nat.le_refl _

private theorem closed_of_worlds (hv : (plain w).Worlds v v) : v.Closed where
  given := hv.given
  cells r q hq := by
    rcases Nat.lt_or_ge r v.size with hr | hr
    · have hp := (hv.cells r r ⟨hr, rfl⟩).payload
      generalize (v.cell r).payload = p at hp hq
      cases p with
      | list es =>
        cases hp with
        | list hes => exact (List.forall₂_same.1 hes q hq).1
      | tuple es =>
        cases hp with
        | tuple hes => exact (List.forall₂_same.1 hes q hq).1
      | _ => cases hq
    · -- there is no such value, and what stands in for it refers to nothing
      rw [World.cell, Store.cell, Array.getD_eq_getD_getElem?, Array.getElem?_eq_none hr] at hq
      cases hq
  tables n e he := (List.forall₂_same.1 (hv.table n) e he).2.1
  scopes n b hb r hr := by
    have halike := hv.scope_alike (show (plain w).scopes.pairs n n from rfl) fun _ ha => by cases ha
    have hrel := (List.forall₂_same.1 halike.bindings b hb).2
    rw [hr] at hrel
    cases hrel with
    | some hrel =>
      cases hrel with
      | value ht => exact ht.1

/-- Every value stands for itself, and after one more value in the first world each for the one before. -/
def seam (v v' : World) (h : 3 ≤ v.size) : Matching where
  values := Renaming.refl.resume v.size (v.size + 1) v.size fun _ _ hlt ha => ⟨Nat.lt_succ_of_lt hlt, ha ▸ hlt⟩
  scopes := .refl
  apart := none
  kept := []
  logged := v.log.length
  logged' := v'.log.length
  given _ hr := .inl ⟨Nat.lt_of_lt_of_le hr h, rfl⟩
  global := rfl
  inner _ h := nomatch h
  alone _ h := nomatch h

/-- Worlds with the same values stay matched if one more value is made in the first one that nothing refers to. -/
theorem Worlds.seam (hv : (plain w).Worlds v v') (c : Cell) : (seam v v' hv.given).Worlds (v.alloc c) v' := by
  have hsize := v.size_alloc c
  have mono : ∀ r r', (plain w).Twins v.size r r' → (Matching.seam v v' hv.given).Twins (v.alloc c).size r r' := by
    rintro r _ ⟨hlt, rfl⟩
    exact ⟨by omega, .inl ⟨hlt, rfl⟩⟩
  refine { hv with
    given := by rw [hsize]; exact Nat.le_succ_of_le hv.given
    sized := ⟨0, hsize, ?_⟩
    cells := fun r r' hr => ?_
    kept := fun _ he => by cases he
    tables := hv.tables.mono fun _ _ h => h.mono mono
    scopes := fun s s' hs => (hv.scopes s s' hs).mono mono
    own := fun _ ha => by cases ha
    loader := ⟨hv.loader.loading, hv.loader.cache.imp fun _ _ he => ⟨he.1, he.2.scopes, fun _ ha => by cases ha⟩⟩
    logged := Nat.le_refl _
    logged' := Nat.le_refl _ }
  · obtain ⟨d, hd, hd'⟩ := hv.sized
    exact hd'.trans hd.symm
  · obtain ⟨hlt, ⟨hseam, rfl⟩ | ⟨d, hd, -⟩⟩ := hr
    · rw [World.cell_alloc, if_neg (Nat.ne_of_lt hseam)]
      have hc := hv.cells r r ⟨hseam, rfl⟩
      exact ⟨hc.payload.mono mono, hc.frame.imp rfl fun _ _ _ _ hf => ⟨hf.scopes, hf.names⟩⟩
    · omega

end Matching

namespace Session

variable {T : Ref → Ref → Prop} {w w' v v' : World} {M : Matching}

theorem printedNames_eq {g g' : Scope Binding} (hs : w.store.Alike T w'.store) (hg : Scope.Alike T g g') :
    g.bindings.map (fun b => (b.1, b.2.map (printedBinding w.store))) =
      g'.bindings.map fun b => (b.1, b.2.map (printedBinding w'.store)) := by
  have hbindings := hg.bindings
  generalize g.bindings = l, g'.bindings = l' at hbindings
  induction hbindings with
  | nil => rfl
  | @cons b b' _ _ hb _ ih =>
    obtain ⟨name, b⟩ := b
    obtain ⟨name', b'⟩ := b'
    obtain ⟨rfl, hb⟩ := hb
    have hprinted : b.map (printedBinding w.store) = b'.map (printedBinding w'.store) := by
      cases hb with
      | none => rfl
      | some hb =>
        cases hb with
        | value hr => exact congrArg some (hs.printed .quoted hr)
        | member m => rfl
    rw [map_cons, map_cons, ih, hprinted]

private theorem view_eq (hs : w.store.Alike T w'.store)
    (hg : Scope.Alike T (w.scope globalScope) (w'.scope globalScope)) (hout : w.out = w'.out)
    (hinput : w.input = w'.input) : view w = view w' := by
  unfold view
  rw [hout, hinput, printedNames_eq hs hg]

section

variable (h : M.Worlds v v') (hM : M.apart = none)
include h hM

private theorem global_alike : Scope.Alike (M.Twins v.size) (v.scope globalScope) (v'.scope globalScope) :=
  h.scope_alike M.global fun a ha => by rw [hM] at ha; cases ha

private theorem view_of_worlds : view v = view v' :=
  view_eq h.alike (global_alike h hM) h.out h.input

private theorem view_alloc (c c' : Cell) : view (v.alloc c) = view (v'.alloc c') := by
  have hglobal := global_alike h hM
  refine view_eq (T := M.Twins v.size) ⟨fun r r' hr => ?_, h.table⟩ hglobal h.out h.input
  have hlt : r < v.size := hr.1
  have hlt' : r' < v'.size := (h.lt_iff hr).1 hlt
  simp only [World.cell_alloc, if_neg (Nat.ne_of_lt hlt), if_neg (Nat.ne_of_lt hlt')]
  exact (h.cells r r' hr).payload

end

variable {name text a b : String} {lexemes : List Lexeme} {tree : Node}

theorem run_of_parse (hs : scan ⟨name, text⟩ = .ok lexemes) (hp : Grammar.parse lexemes = .ok tree) :
    run name text = runTree evaluate tree (programFrame name) := by
  have hprepare : prepare ⟨name, text⟩ = pure (.ok tree) := by
    unfold prepare
    rw [hs]
    dsimp only
    rw [hp]
  unfold run runText
  rw [hprepare]
  rfl

private theorem parse_of_run (h : run name text w = .ok (.ok (some r)) v) :
    ∃ lexemes tree, scan ⟨name, text⟩ = .ok lexemes ∧ Grammar.parse lexemes = .ok tree := by
  unfold run runText prepare at h
  cases hs : scan ⟨name, text⟩ with
  | error e =>
    rw [hs] at h
    cases e <;> cases h
  | ok lexemes =>
    rw [hs] at h
    dsimp only at h
    cases hp : Grammar.parse lexemes with
    | ok tree => exact ⟨lexemes, tree, rfl, hp⟩
    | error e =>
      rw [hp] at h
      cases e <;> cases h

/-! ### Statements -/

section

variable {frame : Frame}

private theorem evaluate_of_runTree (h : runTree evaluate tree frame w = .ok (.ok (some r)) v) :
    evaluate tree frame w = .ok r v := by
  cases he : evaluate tree frame w with
  | ok q u =>
    rw [runTree_ok he] at h
    cases h
    rfl
  | error s u =>
    unfold runTree at h
    rw [tryCatch_error (bind_error he)] at h
    cases s <;> cases h

theorem runTree_error {tree' : Node} {s s' : Signal} (hs : s.Alike T s')
    (h : evaluate tree frame w = .error s v) (h' : evaluate tree' frame' w' = .error s' v') :
    Ends (runTree evaluate tree' frame' w') ∧
      report (runTree evaluate tree' frame' w') = report (runTree evaluate tree frame w) := by
  unfold runTree
  rw [tryCatch_error (bind_error h), tryCatch_error (bind_error h')]
  cases hs with
  | error ht hd => exact ⟨ends_ok _ _, congrArg₂ Report.error ht.symm hd.symm⟩
  | give | cut | skip => exact ⟨ends_ok _ _, rfl⟩
  | _ => exact ⟨ends_error.2 (by simp), rfl⟩

variable {ns : List Node}

theorem evaluate_list {rs : List Ref} (span : Span) (h : ns.mapM (evaluate · frame) w = .ok rs v) :
    ∃ c, evaluate (.list span ns) frame w = .ok v.size (v.alloc c) := by
  have hstep : step evaluate (.list span ns) frame w = .ok v.size (v.alloc _) := bind_ok h
  exact ⟨_, evaluate_ok hstep⟩

theorem evaluate_list_error {s : Signal} (span : Span) (h : ns.mapM (evaluate · frame) w = .error s v)
    (hs : s ≠ .exhausted) :
    evaluate (.list span ns) frame w = .error s v := by
  have hstep : step evaluate (.list span ns) frame w = .error s v := bind_error h
  exact evaluate_of_step hstep (ends_error.2 hs)

private theorem ends_of_evaluate_list {span : Span} (h : Ends (evaluate (.list span ns) frame w)) :
    Ends (ns.mapM (evaluate · frame) w) := by
  rw [evaluate_eq_of_ends h] at h
  exact ends_of_bind h

private theorem statements_of_evaluate {span : Span} (h : evaluate (.list span ns) frame w = .ok r v) :
    ∃ rs u c, ns.mapM (evaluate · frame) w = .ok rs u ∧ v = u.alloc c := by
  have hends : Ends (evaluate (.list span ns) frame w) := by rw [h]; exact ends_ok r v
  have hends := ends_of_evaluate_list hends
  cases hm : ns.mapM (evaluate · frame) w with
  | ok rs u =>
    obtain ⟨c, hc⟩ := evaluate_list span hm
    rw [h] at hc
    cases hc
    exact ⟨rs, u, c, rfl, rfl⟩
  | error s u =>
    rw [hm, ends_error] at hends
    rw [evaluate_list_error span hm hends] at h
    cases h

private theorem log_runTree_list (span : Span) (h : Ends (ns.mapM (evaluate · frame) w)) :
    (after (runTree evaluate (.list span ns) frame w)).log = (after (ns.mapM (evaluate · frame) w)).log := by
  rw [after_runTree]
  cases hm : ns.mapM (evaluate · frame) w with
  | ok rs v =>
    obtain ⟨c, hc⟩ := evaluate_list span hm
    rw [hc]
    rfl
  | error s v =>
    rw [hm, ends_error] at h
    rw [evaluate_list_error span hm h]
    rfl

/-- A run that ends as another one does, with as many modules and scripts, the same report and the same view. -/
def Follows (y x : Outcome Ending) : Prop :=
  Ends y ∧ (after y).log.countP isNoise = (after x).log.countP isNoise ∧ report y = report x ∧
    view (after y) = view (after x)

private theorem runTree_alike {ns' : List Node} {n : Nat} {R : Nat → List Ref → List Ref → Prop}
    (span span' : Span) (hM : M.apart = none)
    (h : M.Outcomes n R (ns.mapM (evaluate · frame) w) (ns'.mapM (evaluate · frame') w'))
    (hends : Ends (ns.mapM (evaluate · frame) w)) :
    Follows (runTree evaluate (.list span' ns') frame' w') (runTree evaluate (.list span ns) frame w) := by
  generalize hx : ns.mapM (evaluate · frame) w = x at h hends
  generalize hy : ns'.mapM (evaluate · frame') w' = y at h
  cases h with
  | ok _ hw _ =>
    obtain ⟨c, hlist⟩ := evaluate_list span hx
    obtain ⟨c', hlist'⟩ := evaluate_list span' hy
    rw [runTree_ok hlist, runTree_ok hlist']
    exact ⟨ends_ok _ _, hw.noise.symm, rfl, (view_alloc hw hM c c').symm⟩
  | error _ hw hs =>
    have hlist := evaluate_list_error span hx (ends_error.1 hends)
    have hlist' := evaluate_list_error span' hy (by rintro rfl; cases hs)
    obtain ⟨hends, hreport⟩ := runTree_error hs hlist hlist'
    rw [Follows, after_runTree, after_runTree, hlist, hlist']
    exact ⟨hends, hw.noise.symm, hreport, (view_of_worlds hw hM).symm⟩
  | lost hs => exact absurd hs.1 (by rw [hM]; simp)

end

theorem run_grows (ends : Ends (run name text w)) : w.log <:+ (after (run name text w)).log :=
  (runText_moves evaluate_moves ⟨name, text⟩ w ends).grows.log

theorem quiet_iff (hs : w.log <:+ v.log) : Quiet w v ↔ v.log.countP isNoise = w.log.countP isNoise := by
  constructor
  · rintro ⟨happened, hlog, hquiet⟩
    have hnone : happened.countP isNoise = 0 := countP_eq_zero.2 fun e he => by simp [hquiet e he]
    rw [hlog, countP_append, hnone, Nat.zero_add]
  · intro hcount
    obtain ⟨happened, hlog⟩ := hs
    rw [← hlog, countP_append] at hcount
    have hnone : happened.countP isNoise = 0 := by omega
    exact ⟨happened, hlog.symm, fun e he => by simpa using countP_eq_zero.1 hnone e he⟩

private theorem calm_of_count (hM : M.apart = none) (hl : w.log.length = M.logged) (hs : w.log <:+ v.log)
    (hcount : v.log.countP isNoise = w.log.countP isNoise) : M.Calm v := by
  obtain ⟨happened, hlog, hquiet⟩ := (quiet_iff hs).2 hcount
  intro e he hspoils
  rw [hlog, length_append, hl, Nat.add_sub_cancel, take_left] at he
  have hnoise := hquiet e he
  unfold Matching.Spoils at hspoils
  split at hspoils
  · cases hnoise
  · rw [hM] at hspoils
    cases hspoils.1
  · exact hspoils

variable {frame : Frame}

private theorem calm_statements {ns : List Node} (hM : M.apart = none) (hl : w.log.length = M.logged)
    (hends : Ends (ns.mapM (evaluate · frame) w))
    (hcount : (after (ns.mapM (evaluate · frame) w)).log.countP isNoise = w.log.countP isNoise) :
    M.Calm (after (ns.mapM (evaluate · frame) w)) :=
  calm_of_count hM hl (Moves.mapM ns (fun node => evaluate_moves node frame) w hends).grows.log hcount

private theorem refs_cell (h : ∀ c ∈ s.cells.toList, c.payload.refs = []) (r : Ref) : (s.cell r).payload.refs = [] := by
  rw [Store.cell, Array.getD_eq_getD_getElem?, ← Array.getElem?_toList]
  cases hc : s.cells.toList[r]? with
  | none => rfl
  | some c => exact h c (mem_of_getElem? hc)

theorem closed_start (files : Files) (input : String) : (start files input).Closed where
  given := show 3 ≤ givenCells.length by decide
  cells r q hq := by
    have hplain : ∀ c ∈ givenCells, c.payload.refs = [] := by decide
    rw [refs_cell hplain] at hq
    cases hq
  tables n e he := by cases he
  scopes n b hb r hr := by
    have hcount : givenNames.length = givenCells.length := by decide
    cases n with
    | zero =>
      obtain ⟨i, hi, rfl⟩ := mem_mapIdx.1 hb
      cases hr
      exact Nat.lt_of_lt_of_eq hi hcount
    | succ n => cases hb

/-- A small world is closed if its values hold none of each other and its names mean values that exist. -/
theorem closed_small {cells : List Cell} {names : List (String × Ref)} (given : 3 ≤ cells.length)
    (hcells : ∀ c ∈ cells, c.payload.refs = []) (hnames : ∀ b ∈ names, b.2 < cells.length) :
    (World.small cells names).Closed where
  given := given
  cells r q hq := by
    have hplain : ∀ c ∈ (World.small cells names).store.cells.toList, c.payload.refs = [] := hcells
    rw [refs_cell hplain] at hq
    cases hq
  tables n e he := by cases he
  scopes n b hb r hr := by
    cases n with
    | zero =>
      obtain ⟨e, he, rfl⟩ := mem_map.1 hb
      cases hr
      exact hnames e he
    | succ n => cases hb

private theorem closed_evaluate (hw : w.Closed) (ends : Ends (evaluate tree frame w))
    (quiet : Quiet w (after (evaluate tree frame w))) : (after (evaluate tree frame w)).Closed := by
  have hgrows := (evaluate_moves tree frame w ends).grows.log
  have hcalm : (plain w).Calm (after (evaluate tree frame w)) :=
    calm_of_count rfl rfl hgrows ((quiet_iff hgrows).1 quiet)
  have ho := evaluate_meets rfl (.refl tree) (plain_frames frame)
    (worlds_of_closed hw) ends hcalm
  generalize evaluate tree frame w = o at ho
  cases o with
  | ok r v =>
    cases ho with
    | ok _ hv _ => exact closed_of_worlds hv
  | error s v =>
    cases ho with
    | error _ hv _ => exact closed_of_worlds hv
    | lost hs => cases hs.1

private theorem closed_run (hw : w.Closed) (ends : Ends (run name text w)) (quiet : Quiet w (after (run name text w))) :
    (after (run name text w)).Closed := by
  have hread := prepare_reads ⟨name, text⟩ w
  cases hp : prepare ⟨name, text⟩ w with
  | error e u =>
    rw [hp] at hread
    rw [show run name text w = .error e u from bind_error hp]
    exact (show u = w from hread) ▸ hw
  | ok prepared u =>
    rw [hp] at hread
    obtain rfl : u = w := hread
    cases prepared with
    | error d =>
      rw [show run name text u = .ok (.error d) u from bind_ok hp]
      exact hw
    | ok tree =>
      rw [show run name text u = runTree evaluate tree (programFrame name) u from bind_ok hp] at ends quiet ⊢
      rw [after_runTree] at quiet ⊢
      exact closed_evaluate hw (ends_of_runTree ends) quiet

/-! ### Two programs in one -/

/-- How the worlds of the two programs and of the one are matched after the first program. -/
structure Joined (M : Matching) (frame : Frame) (v v' : World) : Prop where
  worlds : M.Worlds v v'
  apart : M.apart = none
  frames : M.Frames frame frame
  logged : v.log.length = M.logged
  logged' : v'.log.length = M.logged'

theorem Joined.swap (h : Joined M frame v v') : Joined M.swap frame v' v :=
  ⟨h.worlds.swap h.apart, rfl, h.frames.swap, h.logged', h.logged⟩

/-- After the statements of the first program, the worlds differ by the list that it makes of their values. -/
theorem statements_append {span : Span} {ms ms' : List Node}
    (hms : Forall₂ (Node.Alike AnyPlace) ms ms') (hw : w.Closed) (ha : evaluate (.list span ms) frame w = .ok r v)
    (hcount : v.log.countP isNoise = w.log.countP isNoise) :
    ∃ (M : Matching) (v' : World) (rs : List Ref), Joined M frame v v' ∧
      ∀ ns, (ms' ++ ns).mapM (evaluate · frame) w = (ns.mapM (evaluate · frame) >>= fun qs => pure (rs ++ qs)) v' := by
  have moving : Matching.Moving evaluate := ⟨evaluate_moves⟩
  obtain ⟨rs, u, c, hu, rfl⟩ := statements_of_evaluate ha
  have hends : Ends (ms.mapM (evaluate · frame) w) := by rw [hu]; exact ends_ok _ _
  have hcalm := calm_statements (M := plain w) rfl rfl hends (by rw [hu]; exact hcount)
  have hfirst := mapM_meets (evaluate_meets rfl) (plain_frames frame)
    (worlds_of_closed hw) hms hends hcalm
  rw [hu] at hfirst
  generalize hu' : ms'.mapM (evaluate · frame) w = first at hfirst
  cases hfirst with
  | @ok _ rs' _ u' _ hworlds _ =>
    refine ⟨_, u', rs', ⟨hworlds.seam c, rfl, ⟨List.forall₂_same.2 fun _ _ => rfl, rfl⟩, rfl, rfl⟩, fun ns => ?_⟩
    rw [mapM_append, bind_ok hu']

private theorem after_bind_pure {α β : Type} (x : Eval α) (f : α → β) :
    after ((x >>= fun a => pure (f a)) w) = after (x w) := by
  cases hx : x w with
  | ok a v => rw [bind_ok hx]; rfl
  | error s v => rw [bind_error hx]; rfl

section

variable {ns ns' all : List Node} {rs : List Ref} (span span' : Span)

variable (hns : Forall₂ (Node.Alike AnyPlace) ns ns') (hv : Joined M frame v v')
  (hall : all.mapM (evaluate · frame) w = (ns'.mapM (evaluate · frame) >>= fun qs => pure (rs ++ qs)) v')
include hns hv hall

/-- The statements of both programs do what those of the second one do after the first. -/
theorem runTree_of_second (ends : Ends (runTree evaluate (.list span ns) frame v))
    (hcount : (after (runTree evaluate (.list span ns) frame v)).log.countP isNoise = v.log.countP isNoise) :
    Follows (runTree evaluate (.list span' all) frame w) (runTree evaluate (.list span ns) frame v) := by
  have moving : Matching.Moving evaluate := ⟨evaluate_moves⟩
  have hends := ends_of_evaluate_list (ends_of_runTree ends)
  have hcalm := calm_statements hv.apart hv.logged hends (by rw [← log_runTree_list span hends, hcount])
  have ho := mapM_meets (evaluate_meets hv.apart) hv.frames hv.worlds hns hends hcalm
  have ho := ho.bind (f := pure) (g := fun qs => pure (rs ++ qs)) (S := fun _ _ _ => True)
    fun _ _ _ _ _ _ hv _ => .ok (Nat.le_refl _) hv trivial
  rw [bind_pure, ← hall] at ho
  exact runTree_alike span span' hv.apart ho hends

/-- If both programs in one end, so does the second one after the first. -/
theorem runTree_of_all (ends : Ends (runTree evaluate (.list span' all) frame w))
    (hcount : (after (runTree evaluate (.list span' all) frame w)).log.countP isNoise = v.log.countP isNoise) :
    Follows (runTree evaluate (.list span ns) frame v) (runTree evaluate (.list span' all) frame w) := by
  have moving : Matching.Moving evaluate := ⟨evaluate_moves⟩
  have hends := ends_of_evaluate_list (ends_of_runTree ends)
  have hlog := log_runTree_list span' hends
  rw [hall] at hends hlog
  rw [after_bind_pure] at hlog
  have hstop := ends_of_bind hends
  have hcalm := calm_statements (M := M.swap) rfl hv.logged' hstop (by rw [← hlog, hcount, hv.worlds.noise])
  have ho := mapM_meets (evaluate_meets rfl) hv.swap.frames hv.swap.worlds
    (forall₂_symm (fun _ _ => .symm) hns) hstop hcalm
  have ho := ho.bind (f := fun qs => pure (rs ++ qs)) (g := pure) (S := fun _ _ _ => True)
    fun _ _ _ _ _ _ hv _ => .ok (Nat.le_refl _) hv trivial
  rw [bind_pure, ← hall] at ho
  exact runTree_alike span' span rfl ho (hall ▸ hends)

end

/-- Two programs one after the other do the same as one program that has both, with a line end between them, if that
is a token by itself. The one program ends, and neither brings a module in nor runs a script, exactly if this holds of
the second program after the first. It then ends as the second one does, prints and reads the same, and leaves the
same global names with values of the same form. The world that the two programs leave is closed again. -/
theorem run_append_line {r : Ref} {lexemes last : List Lexeme} (hw : w.Closed)
    (hline : scan ⟨name, a ++ "\n"⟩ = .ok lexemes) (hseam : Token.EndsAt a.length lexemes)
    (hb : scan ⟨name, b⟩ = .ok last) (hparse : Grammar.parse last = .ok tree)
    (ha : run name a w = .ok (.ok (some r)) v) (quiet : Quiet w v) :
    (Ends (run name (a ++ "\n" ++ b) w) ∧ Quiet w (after (run name (a ++ "\n" ++ b) w)) ↔
        Ends (run name b v) ∧ Quiet v (after (run name b v))) ∧
      (Ends (run name b v) → Quiet v (after (run name b v)) →
        report (run name (a ++ "\n" ++ b) w) = report (run name b v) ∧
        view (after (run name (a ++ "\n" ++ b) w)) = view (after (run name b v)) ∧
        (after (run name b v)).Closed) := by
  have hafter : after (run name a w) = v := by rw [ha]; rfl
  have hends : Ends (run name a w) := by rw [ha]; exact ends_ok _ _
  have hclosed : v.Closed := hafter ▸ closed_run hw hends (hafter.symm ▸ quiet)
  have hcount := (quiet_iff (hafter ▸ run_grows hends)).1 quiet
  -- the tokens and statements of the one program are those of the two
  obtain ⟨xs, tree₁, hxs, htree₁⟩ := parse_of_run ha
  obtain ⟨init, e, init', t, last', rfl, ht, hinit, hlast, hscan⟩ := scan_seam hxs hline hseam hb
  obtain ⟨init₁, e₁, hx₁, he₁, hnone₁⟩ := scanRest_ends ((scan_eq _).symm.trans hxs)
  obtain ⟨rfl, he⟩ := append_inj' hx₁ rfl
  obtain rfl : e = e₁ := by simpa using he
  obtain ⟨init₂, e₂, rfl, he₂, hnone₂⟩ := scanRest_ends ((scan_eq _).symm.trans hb)
  obtain ⟨span, span', whole, ms, ns, ms', ns', rfl, rfl, hms, hns, hwhole⟩ :=
    Grammar.parse_append_line he₁ hnone₁ he₂ hnone₂ ht hinit hlast htree₁ hparse
  have hfirst := run_of_parse hxs htree₁
  have hsecond := run_of_parse hb hparse
  have hboth := run_of_parse hscan hwhole
  rw [hfirst] at ha
  obtain ⟨M, v', rs, hv, hall⟩ := statements_append hms hw (evaluate_of_runTree ha) hcount
  -- from the second program to the one with both
  have there (ends : Ends (run name b v)) (quiet : Quiet v (after (run name b v))) :
      Ends (run name (a ++ "\n" ++ b) w) ∧ Quiet w (after (run name (a ++ "\n" ++ b) w)) ∧
        report (run name (a ++ "\n" ++ b) w) = report (run name b v) ∧
        view (after (run name (a ++ "\n" ++ b) w)) = view (after (run name b v)) := by
    have hquiet := (quiet_iff (run_grows ends)).1 quiet
    rw [hsecond] at ends hquiet ⊢
    have hfollows := runTree_of_second span' whole hns hv (hall ns') ends hquiet
    rw [← hboth] at hfollows
    obtain ⟨hends, hlog, hsame⟩ := hfollows
    exact ⟨hends, (quiet_iff (run_grows hends)).2 (hlog.trans (hquiet.trans hcount)), hsame⟩
  -- and back
  have back (ends : Ends (run name (a ++ "\n" ++ b) w)) (quiet : Quiet w (after (run name (a ++ "\n" ++ b) w))) :
      Ends (run name b v) ∧ Quiet v (after (run name b v)) := by
    have hquiet := (quiet_iff (run_grows ends)).1 quiet
    rw [hboth] at ends hquiet
    have hnoise := hquiet.trans hcount.symm
    have hfollows := runTree_of_all span' whole hns hv (hall ns') ends hnoise
    rw [← hsecond] at hfollows
    obtain ⟨hends, hlog, -⟩ := hfollows
    exact ⟨hends, (quiet_iff (run_grows hends)).2 (hlog.trans hnoise)⟩
  refine ⟨⟨fun h => back h.1 h.2, fun h => ?_⟩, fun ends quiet => ?_⟩
  · obtain ⟨hends, hquiet, -⟩ := there h.1 h.2
    exact ⟨hends, hquiet⟩
  · obtain ⟨-, -, hreport, hview⟩ := there ends quiet
    exact ⟨hreport, hview, closed_run hclosed ends quiet⟩

namespace Sample

/-- A world with the values that exist from the start and without names. -/
def world : World := .small [.fresh (.number (.int 0)), .fresh (.number (.int 0)), .fresh (.number (.int 1))] []

def span (s : Source) (i j : Nat) : Span := ⟨⟨i, 0, i, s⟩, ⟨j, 0, j, s⟩⟩

def token (s : Source) (kind : Token.Kind) (value : Scalar) (i j : Nat) : Token :=
  ⟨kind, value, ⟨i, 0, i, s⟩, ⟨j, 0, j, s⟩⟩

def first : Source := ⟨"main", "put 1 in x"⟩

def second : Source := ⟨"main", "x % 0"⟩

def firstTree : Node :=
  .list (span first 0 11) [.assign (span first 4 10) (token first .identifier (.text "x") 9 10)
    (.number (span first 4 5) (token first .int (.int 1) 4 5))]

def secondTree : Node :=
  .list (span second 0 6) [.binary (span second 0 5)
    (.named (span second 0 1) (token second .identifier (.text "x") 0 1)) (token second .mod .absent 2 3)
    (.number (span second 4 5) (token second .int (.int 0) 4 5))]

def between : World := after (runTree (evaluateTo 3) firstTree (programFrame "main") world)

private theorem closed_world : world.Closed := closed_small (by decide) (by decide) (by simp)

private theorem run_first : ∃ r, run "main" "put 1 in x" world = .ok (.ok (some r)) between := by
  have hread : ∃ xs, scan first = .ok xs ∧ Grammar.parse xs = .ok firstTree := ⟨_, rfl, rfl⟩
  obtain ⟨xs, hscan, hparse⟩ := hread
  have hrun : ∃ r, runTree (evaluateTo 3) firstTree (programFrame "main") world = .ok (.ok (some r)) between := ⟨_, rfl⟩
  obtain ⟨r, hr⟩ := hrun
  exact ⟨r, (congrFun (run_of_parse hscan hparse) world).trans
    ((runTree_approximates (evaluateTo_approximates 3) firstTree _).eq_of_ok hr)⟩

/-- The second program divides by zero what the first one has bound. -/
theorem run_append_line_modulo :
    ∃ r v, run "main" "put 1 in x" world = .ok (.ok (some r)) v ∧ Quiet world v ∧
      Ends (run "main" ("put 1 in x" ++ "\n" ++ "x % 0") world) ∧
      report (run "main" ("put 1 in x" ++ "\n" ++ "x % 0") world) = .error "Runtime Error" "Modulo by zero" ∧
      view (after (run "main" ("put 1 in x" ++ "\n" ++ "x % 0") world)) = view (after (run "main" "x % 0" v)) := by
  obtain ⟨r, hfirst⟩ := run_first
  have quiet : Quiet world between := ⟨[], rfl, by simp⟩
  have hread : ∃ xs, scan second = .ok xs ∧ Grammar.parse xs = .ok secondTree := ⟨_, rfl, rfl⟩
  obtain ⟨xs, hscan, hparse⟩ := hread
  have hrun : ∃ d v, runTree (evaluateTo 4) secondTree (programFrame "main") between = .ok (.error d) v ∧
      d.title = "Runtime Error" ∧ d.details = "Modulo by zero" ∧ v.log = between.log := ⟨_, _, rfl, rfl, rfl, rfl⟩
  obtain ⟨d, v, hrun, htitle, hdetails, hlog⟩ := hrun
  have hsecond : run "main" "x % 0" between = .ok (.error d) v := (congrFun (run_of_parse hscan hparse) between).trans
    ((runTree_approximates (evaluateTo_approximates 4) secondTree _).eq_of_ok hrun)
  have ends : Ends (run "main" "x % 0" between) := by rw [hsecond]; exact ends_ok _ _
  have quiet' : Quiet between (after (run "main" "x % 0" between)) := by
    rw [hsecond]
    exact ⟨[], hlog, by simp⟩
  have hline : ∃ lexemes, scan ⟨"main", "put 1 in x" ++ "\n"⟩ = .ok lexemes ∧
      Token.EndsAt "put 1 in x".length lexemes := ⟨_, rfl, [_, _, _, _], _, _, rfl, rfl⟩
  obtain ⟨lexemes, hline, hseam⟩ := hline
  obtain ⟨hiff, hsame⟩ := run_append_line closed_world hline hseam hscan hparse hfirst quiet
  obtain ⟨hreport, hview, -⟩ := hsame ends quiet'
  refine ⟨r, between, hfirst, quiet, (hiff.2 ⟨ends, quiet'⟩).1, hreport.trans ?_, hview⟩
  rw [hsecond]
  exact congrArg₂ Report.error htitle hdetails

end Sample

end Session

end Utterance

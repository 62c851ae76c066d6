import Utterance.Proofs.Bindings
import Utterance.Session

/-!
# The frame of a function

A function runs in a new scope inside the frame that is kept with it, so that frame decides what its free names mean.
The frame is the one where the function was made, until the function is passed to a call: from then on it is the frame
of that call, with the scope of the parameters. `Reaches.history` says this for everything that evaluation can do, and
`frame_eq_iff` says when exactly a function keeps its frame.
-/

namespace Utterance

open Eval World Store List

variable {args : List Ref} {b : Option Builtin} {frame inner : Frame} {w w' : World}

/-- The frame that a function is moved into by an event. -/
def Event.movedInto (f : Ref) : Event → Option Frame
  | .called _ frame args => if f ∈ args then some frame else none
  | _ => none

/-- What happened between two worlds: every call got a new scope, and a function has the frame of the last call that
it was passed to. -/
structure History (w w' : World) (happened : List Event) : Prop where
  log : w'.log = happened ++ w.log
  fresh : ∀ {b frame args}, .called b frame args ∈ happened →
    ∃ n outer, frame.scopes = n :: outer ∧ w.scopeCount ≤ n
  payload : ∀ {f}, (w.cell f).payload.isFunction = true →
    (w'.cell f).payload = (w.cell f).payload
  frame : ∀ {f}, (w.cell f).payload.isFunction = true →
    (w'.cell f).frame = (happened.findSome? (Event.movedInto f)).or (w.cell f).frame

namespace History

theorem trans {v u : World} {first later : List Event} (h : History w v first) (h' : History v u later)
    (hg : Grows w v) : History w u (later ++ first) where
  log := by rw [h'.log, h.log, append_assoc]
  fresh he := by
    rcases mem_append.1 he with he | he
    · obtain ⟨n, outer, hs, hn⟩ := h'.fresh he
      exact ⟨n, outer, hs, Nat.le_trans hg.scopes hn⟩
    · exact h.fresh he
  payload hf := (h'.payload (by rwa [h.payload hf])).trans (h.payload hf)
  frame hf := by rw [h'.frame (by rwa [h.payload hf]), h.frame hf, findSome?_append, Option.or_assoc]

theorem nothing (hl : w'.log = w.log) (hc : ∀ f, (w.cell f).payload.isFunction = true →
      (w'.cell f).payload = (w.cell f).payload ∧ (w'.cell f).frame = (w.cell f).frame) :
    History w w' [] where
  log := hl
  fresh he := nomatch he
  payload hf := (hc _ hf).1
  frame hf := (hc _ hf).2

theorem noted {e : Event} (he : e.isCall = false) (hl : w'.log = e :: w.log)
    (hc : w'.store.cells = w.store.cells) : History w w' [e] := by
  have hcell (f : Ref) : w'.cell f = w.cell f := by unfold World.cell Store.cell; rw [hc]
  have hmoved (f : Ref) : e.movedInto f = none := by
    cases e with
    | called => cases he
    | _ => rfl
  refine ⟨hl, fun hm => ?_, fun {f} _ => by rw [hcell f], fun {f} _ => ?_⟩
  · rw [mem_singleton] at hm
    subst hm
    cases he
  · rw [findSome?_singleton, hmoved, hcell f]
    rfl

theorem frame_of_passed {happened : List Event} (h : History w w' happened) {f : Ref}
    (hf : (w.cell f).payload.isFunction = true) (he : .called b frame args ∈ happened) (ha : f ∈ args) :
    ∃ frame n outer, (w'.cell f).frame = some frame ∧ frame.scopes = n :: outer ∧ w.scopeCount ≤ n := by
  have hs : (happened.findSome? (Event.movedInto f)).isSome := by
    rw [findSome?_isSome_iff]
    exact ⟨_, he, by simp [Event.movedInto, ha]⟩
  obtain ⟨last, hlast⟩ := Option.isSome_iff_exists.1 hs
  obtain ⟨e, hm, hi⟩ := exists_of_findSome?_eq_some hlast
  cases e with
  | called b frame args =>
    have hfr : frame = last := by
      simp only [Event.movedInto] at hi
      split at hi
      · exact Option.some.inj hi
      · cases hi
    obtain ⟨n, outer, hs, hn⟩ := h.fresh hm
    exact ⟨last, n, outer, by rw [h.frame hf, hlast]; rfl, hfr ▸ hs, hn⟩
  | _ => cases hi

end History

theorem Payload.isCallable_of_isFunction {p : Payload} (h : p.isFunction = true) : p.isCallable = true := by
  cases p with
  | function => rfl
  | _ => cases h

theorem Enters.history {v : World} (h : Enters frame b inner args w v) : History w v [.called b inner args] := by
  obtain ⟨u, hu, rfl⟩ := h.entered
  have hc (f : Ref) := hu.cell f
  refine ⟨?_, fun he => ?_, fun {f} hf => ?_, fun {f} hf => ?_⟩
  · simp [World.record, hu.log, World.newScope]
  · obtain ⟨outer, _, _, _, _, rfl, _⟩ := h
    cases mem_singleton.1 he
    exact ⟨_, outer.scopes, rfl, Nat.le_refl _⟩
  · show (u.cell f).payload = _
    rw [hc f]
    split <;> rfl
  · have hlt : f < w.newScope.store.cells.size := w.lt_of_isCallable (Payload.isCallable_of_isFunction hf)
    show (u.cell f).frame = _
    rw [hc f]
    by_cases ha : f ∈ args
    · simp [Event.movedInto, ha, hlt]
    · simp [Event.movedInto, ha]
      rfl

theorem Cell.isCallable_mapElements (c : Cell) (f : Array Ref → Array Ref) :
    (c.mapElements f).payload.isCallable = c.payload.isCallable := by
  unfold Cell.mapElements
  split
  · next hp => rw [hp]; rfl
  · rfl

theorem Cell.mapElements_eq {c : Cell} (f : Array Ref → Array Ref) (h : c.payload.isCallable = true) :
    c.mapElements f = c := by
  unfold Cell.mapElements
  split
  · next hp =>
    rw [hp] at h
    cases h
  · rfl

/-- Whatever evaluation does, a function has the frame of the last call that it was passed to. -/
theorem Reaches.history (h : Reaches frame w w') : ∃ happened, History w w' happened := by
  induction h with
  | refl | newTable | bind | stream | loader => exact ⟨[], .nothing rfl fun _ _ => ⟨rfl, rfl⟩⟩
  | trans h _ ih ih' =>
    obtain ⟨first, h₁⟩ := ih
    obtain ⟨later, h₂⟩ := ih'
    exact ⟨later ++ first, h₁.trans h₂ h.grows⟩
  | alloc frame w c _ =>
    refine ⟨[], .nothing rfl fun f hf => ?_⟩
    have hlt := w.lt_of_isCallable (Payload.isCallable_of_isFunction hf)
    rw [cell_alloc, if_neg (Nat.ne_of_lt hlt)]
    exact ⟨rfl, rfl⟩
  | place frame w r span =>
    refine ⟨[], .nothing rfl fun f _ => ?_⟩
    rw [cell_modifyCell]
    split <;> exact ⟨rfl, rfl⟩
  | reframe frame w r hr =>
    refine ⟨[], .nothing rfl fun f hf => ?_⟩
    have hne : f ≠ r := by
      rintro rfl
      rw [hf] at hr
      cases hr
    rw [cell_modifyCell, if_neg fun h => hne h.1]
    exact ⟨rfl, rfl⟩
  | @sharing frame n outer w _ => exact ⟨_, .noted (e := .sharing n) rfl rfl rfl⟩
  | @shared frame n outer w name _ => exact ⟨_, .noted (e := .shared n name) rfl rfl rfl⟩
  | noted frame w e he _ => exact ⟨_, .noted he rfl rfl⟩
  | @scope frame inner w v _ _ ih =>
    obtain ⟨happened, hv⟩ := ih
    refine ⟨happened, hv.log, fun he => ?_, hv.payload, hv.frame⟩
    obtain ⟨n, outer, hs, hn⟩ := hv.fresh he
    exact ⟨n, outer, hs, Nat.le_trans (by simp) hn⟩
  | call he _ ih | run _ he _ ih =>
    obtain ⟨later, hv⟩ := ih
    exact ⟨_, he.history.trans hv he.grows⟩
  | @elements frame b inner r args w v f hb he =>
    refine ⟨_, he.history.trans (.nothing rfl fun q hq => ?_) he.grows⟩
    rw [cell_modifyCell]
    split
    · rw [Cell.mapElements_eq f (Payload.isCallable_of_isFunction hq)]
      exact ⟨rfl, rfl⟩
    · exact ⟨rfl, rfl⟩
  | erase key he _ => exact ⟨_, he.history.trans (.nothing rfl fun _ _ => ⟨rfl, rfl⟩) he.grows⟩

namespace World

def HasScopes (w : World) (scopes : List Nat) : Prop := ∀ n ∈ scopes, n < w.scopeCount

/-- Everything that can be called was seen in scopes that exist. -/
structure Scoped (w : World) : Prop where
  global : w.HasScopes [globalScope]
  callable : ∀ {q frame}, (w.cell q).payload.isCallable = true → (w.cell q).frame = some frame →
    w.HasScopes frame.scopes

variable {scopes : List Nat}

theorem HasScopes.grows (h : w.HasScopes scopes) (hg : Grows w w') : w'.HasScopes scopes :=
  fun n hn => Nat.lt_of_lt_of_le (h n hn) hg.scopes

/-- What holds of a frame goes on to hold, also of one with a new scope inside it, and of that of a call. -/
structure Lasting (P : World → Frame → Prop) : Prop where
  grows : ∀ {w w' frame}, w.scopeCount ≤ w'.scopeCount → P w frame → P w' frame
  inside : ∀ {w frame}, P w frame → P w.newScope (w.inside frame)
  call : ∀ {w outer} (level : Level), P w outer →
    P w.newScope ⟨level :: outer.levels, w.scopeCount :: outer.scopes⟩

theorem HasScopes.cons (h : w.HasScopes scopes) : w.newScope.HasScopes (w.scopeCount :: scopes) := by
  have hsize := w.scopeCount_newScope
  intro n hn
  rcases mem_cons.1 hn with rfl | hn
  · omega
  · have := h n hn
    omega

theorem lasting_hasScopes : Lasting fun w frame => w.HasScopes frame.scopes where
  grows hg h n hn := Nat.lt_of_lt_of_le (h n hn) hg
  inside h := h.cons
  call _ h := h.cons

/-- What holds of the frames of programs and of those that values were seen in: all values, calls, and modules, if `A`
holds, else values that can be called. -/
structure Sees (A : Prop) (P : World → Frame → Prop) (w : World) : Prop where
  program : ∀ name, P w (programFrame name)
  cells : ∀ {q frame}, A ∨ (w.cell q).payload.isCallable = true → (w.cell q).frame = some frame → P w frame
  called : A → ∀ {b frame args}, .called b frame args ∈ w.log → P w frame
  modules : A → ∀ e ∈ w.loader.cache, ∃ frame, P w frame ∧ e.2.scope :: e.2.outer = frame.scopes

namespace Sees

variable {A : Prop} {P : World → Frame → Prop} (hw : w.Sees A P)
include hw

theorem known (hs : P w frame) (hk : Known frame w inner) : P w inner := by
  rcases hk with rfl | ⟨name, rfl⟩ | ⟨q, hp, hf⟩
  · exact hs
  · exact hw.program name
  · exact hw.cells (.inr hp) hf

variable (hP : Lasting P)
include hP

/-- What evaluation keeps if values and calls have the frames of such values and calls before, or ones of which it
holds. -/
theorem of_cells (hg : w.scopeCount ≤ w'.scopeCount) (hl : w'.loader = w.loader)
    (hlog : ∀ {b frame args}, .called b frame args ∈ w'.log → .called b frame args ∈ w.log ∨ P w' frame)
    (hc : ∀ {q frame}, A ∨ (w'.cell q).payload.isCallable = true → (w'.cell q).frame = some frame →
      (A ∨ (w.cell q).payload.isCallable = true) ∧ (w.cell q).frame = some frame ∨ P w' frame) :
    w'.Sees A P where
  program name := hP.grows hg (hw.program name)
  cells hp hf := (hc hp hf).elim (fun h => hP.grows hg (hw.cells h.1 h.2)) id
  called ha _ _ _ he := (hlog he).elim (fun h => hP.grows hg (hw.called ha h)) id
  modules ha e he := (hw.modules ha e (hl ▸ he)).imp fun _ h => ⟨hP.grows hg h.1, h.2⟩

theorem modifyCell (r : Ref) {f : Cell → Cell} (hp : ∀ c, (f c).payload.isCallable = c.payload.isCallable)
    (hf : ∀ c frame, (f c).frame = some frame → c.frame = some frame ∨ P w frame) :
    (w.modifyCell r f).Sees A P := by
  refine hw.of_cells hP (Nat.le_refl _) rfl .inl fun {q frame} hc hq => ?_
  rw [cell_modifyCell] at hc hq
  split at hc
  · next h =>
    rw [if_pos h] at hq
    rw [hp] at hc
    exact (hf _ _ hq).imp (⟨hc, ·⟩) (hP.grows (w := w) (Nat.le_refl _))
  · next h =>
    rw [if_neg h] at hq
    exact .inl ⟨hc, hq⟩

theorem enters (hs : P w frame) (h : Enters frame b inner args w w') : w'.Sees A P ∧ P w' inner := by
  obtain ⟨u, hu, rfl⟩ := h.entered
  obtain ⟨outer, level, _, _, hk, hi, _⟩ := h
  have hb : P (u.record (.called b inner args)) inner := by
    rw [hi]
    exact hP.grows (Nat.le_of_eq hu.scopeCount.symm) (hP.call level (hw.known hs hk))
  have hg : w.scopeCount ≤ u.scopeCount := by rw [hu.scopeCount]; simp
  refine ⟨hw.of_cells hP hg hu.loader (fun he => ?_) fun {q fr} hp hf => ?_, hb⟩
  · rcases mem_cons.1 he with he | he
    · cases he
      exact .inr hb
    · exact .inl (hu.log ▸ he)
  have hc : (u.record (.called b inner args)).cell q = _ := hu.cell q
  rw [hc] at hp hf
  split at hp
  · next hq =>
    rw [if_pos hq] at hf
    obtain rfl : inner = fr := Option.some.inj hf
    exact .inr hb
  · next hq =>
    rw [if_neg hq] at hf
    exact .inl ⟨hp, hf⟩

/-- Evaluation in a frame of which it holds keeps it. -/
theorem reaches (hs : P w frame) (h : Reaches frame w w') : w'.Sees A P := by
  have same {w v : World} (hw : w.Sees A P) (hg : w.scopeCount ≤ v.scopeCount) (hl : v.loader = w.loader)
      (hlog : ∀ {b frame args}, .called b frame args ∈ v.log → .called b frame args ∈ w.log)
      (hc : v.store.cells = w.store.cells) : v.Sees A P :=
    hw.of_cells hP hg hl (fun he => .inl (hlog he)) fun {q _} hp hf => by
      rw [World.cell, Store.cell, hc] at hp hf
      exact .inl ⟨hp, hf⟩
  induction h with
  | refl => exact hw
  | trans h _ ih ih' => exact ih' (ih hw hs) (hP.grows h.grows.scopes hs)
  | alloc frame w c hc hseen =>
    refine hw.of_cells hP (Nat.le_refl _) rfl .inl fun {q fr} hp hf => ?_
    rw [cell_alloc] at hp hf
    split at hp
    · next hq =>
      rw [if_pos hq] at hf
      refine .inr (hP.grows (w := w) (Nat.le_refl _) ?_)
      rcases hp with ha | hp
      · rcases hseen fr hf with rfl | ⟨r, hr⟩
        · exact hs
        · exact hw.cells (.inl ha) hr
      · exact hw.known hs (hc hp fr hf)
    · next hq =>
      rw [if_neg hq] at hf
      exact .inl ⟨hp, hf⟩
  | place frame w r span => exact hw.modifyCell hP r (fun _ => rfl) fun _ _ => .inl
  | reframe frame w r _ => exact hw.modifyCell hP r (fun _ => rfl) fun _ _ hf => .inr (Option.some.inj hf ▸ hs)
  | newTable | stream => exact same hw (Nat.le_refl _) rfl id rfl
  | noted frame w e he _ =>
    refine same hw (Nat.le_refl _) rfl (fun h => (mem_cons.1 h).resolve_left ?_) rfl
    rintro rfl
    cases he
  | loader frame w f hf =>
    have kept {fr : Frame} (h : P w fr) : P { w with loader := f w.loader } fr := hP.grows (w := w) (Nat.le_refl _) h
    refine ⟨fun name => kept (hw.program name), fun hp h => kept (hw.cells hp h), fun ha _ _ _ h =>
      kept (hw.called ha h), fun ha e he => ?_⟩
    rcases hf e he with he | he
    · exact (hw.modules ha e he).imp fun _ h => ⟨kept h.1, h.2⟩
    · exact ⟨frame, kept hs, he⟩
  | bind => exact same hw (by simp) rfl id rfl
  | sharing | shared =>
    refine same hw (by simp) rfl (fun h => (mem_cons.1 h).resolve_left ?_) rfl
    rintro ⟨⟩
  | scope hk _ ih => exact ih (same hw (by simp) rfl id rfl) (hP.inside (hw.known hs hk))
  | call he _ ih =>
    obtain ⟨hv, hf⟩ := hw.enters hP hs he
    exact ih hv hf
  | @elements _ _ _ r _ _ _ f _ he =>
    refine (hw.enters hP hs he).1.modifyCell hP r (Cell.isCallable_mapElements · f) fun c _ hf => .inl ?_
    unfold Cell.mapElements at hf
    split at hf <;> exact hf
  | erase key he _ => exact same (hw.enters hP hs he).1 (Nat.le_refl _) rfl id rfl
  | run name he _ ih =>
    have hv := (hw.enters hP hs he).1
    exact ih hv (hv.program name)

end Sees

/-- Evaluation in scopes that exist keeps all functions in scopes that exist. -/
theorem Scoped.reaches (hw : w.Scoped) (hs : w.HasScopes frame.scopes) (h : Reaches frame w w') : w'.Scoped := by
  have hsees : w.Sees False fun w frame => w.HasScopes frame.scopes :=
    ⟨fun _ => hw.global, fun hp => hw.callable (hp.resolve_left id), False.elim, False.elim⟩
  have h := hsees.reaches lasting_hasScopes hs h
  exact ⟨h.program "", fun hp => h.cells (.inr hp)⟩

end World

theorem frame_initial (q : Ref) : (initial.cell q).frame = none :=
  cell_initial (Q := fun c => c.frame = none) rfl (by simp [givenCells, Cell.fresh]) q

theorem scoped_start (files : Files) (input : String) : (Session.start files input).Scoped where
  global n hn := by
    obtain rfl := mem_singleton.1 hn
    exact Nat.zero_lt_one
  callable {q} _ _ hf := by
    have h : ((Session.start files input).cell q).frame = none := frame_initial q
    rw [h] at hf
    cases hf

namespace Session

/-- A world that a session can come to, between programs or while one runs. -/
inductive Reachable : World → Prop
  | start (files : Files) (input : String) : Reachable (start files input)
  | later {w v} (name : String) : Reachable w → Reaches (programFrame name) w v → Reachable v

theorem Reachable.scoped (hw : Reachable w) : w.Scoped := by
  induction hw with
  | start files input => exact scoped_start files input
  | later _ _ hr ih => exact ih.reaches ih.global hr

end Session

/-- A call is accepted: the value can be called and was seen in some frame, and there is one parameter for each
argument. -/
def Accepts (w : World) (g : Ref) (args : List Ref) : Prop :=
  match (w.cell g).payload with
  | .function _ params _ => (w.cell g).frame.isSome ∧ params.length = args.length
  | .builtin b => (w.cell g).frame.isSome ∧ b.params.length = args.length
  | _ => False

/-- A call either is not accepted and changes no value, or it is accepted, and it is entered. -/
theorem call_cases {g : Ref} (he : Ends (call evaluate g args w)) :
    (¬ Accepts w g args ∧ ∀ q, (after (call evaluate g args w)).cell q = w.cell q) ∨
    Accepts w g args ∧ ∃ b frame v,
      Enters default b frame args w v ∧ v.log <:+ (after (call evaluate g args w)).log := by
  have entering (b : Option Builtin) (name : String) (params : List String) (k : Frame → Eval Ref)
      (hg : (w.cell g).payload.isCallable = true)
      (hk : ∀ frame v, Ends (k frame v) → v.log <:+ (after (k frame v)).log)
      (hc : call evaluate g args w = (enterWith g (w.cell g) b name params args >>= k) w)
      (ha : Accepts w g args ↔ (w.cell g).frame.isSome ∧ params.length = args.length) :
      (¬ Accepts w g args ∧ ∀ q, (after (call evaluate g args w)).cell q = w.cell q) ∨
      Accepts w g args ∧ ∃ b frame v, Enters default b frame args w v ∧
        v.log <:+ (after (call evaluate g args w)).log := by
    rcases enterWith_cases default b name params args hg with ⟨hr, s, v, hv, hw⟩ | ⟨hr, frame, v, hv, hw⟩
    · rw [bind_error hv] at hc
      refine .inl ⟨fun h => hr (ha.1 h), fun q => ?_⟩
      rw [hc]
      rcases hw with rfl | rfl <;> rfl
    · rw [bind_ok hv] at hc
      rw [hc] at he ⊢
      exact .inr ⟨ha.2 hr, b, frame, v, hw, hk frame v he⟩
  cases hp : (w.cell g).payload with
  | function name params body =>
    refine entering none name params (runBody evaluate body) (by rw [hp]; rfl)
      (fun frame v hv => (runBody_moves evaluate_moves body frame v hv).grows.log) ?_ (by simp only [Accepts, hp])
    unfold call
    rw [bind_ok (show cell g w = .ok (w.cell g) w from rfl), hp]
  | builtin b =>
    refine entering (some b) b.name b.params
      (fun frame => builtin evaluate ⟨(w.cell g).start, (w.cell g).stop, frame⟩ b args) (by rw [hp]; rfl)
      (fun frame v hv => (builtin_reaches evaluate_moves _ b args v hv : BuiltinReaches default b args v _).lasts.log)
        ?_
      (by simp only [Accepts, hp])
    unfold call
    rw [bind_ok (show cell g w = .ok (w.cell g) w from rfl), hp]
  | _ =>
    refine .inl ⟨by simp only [Accepts, hp, not_false_eq_true], fun q => ?_⟩
    unfold call
    rw [bind_ok (show cell g w = .ok (w.cell g) w from rfl), hp]
    rfl

/-- In every world that a session can come to, an evaluation keeps the frame of a function exactly if no call on the
way was given the function as an argument. A call that is given the function keeps the frame exactly if it is refused;
one that is accepted moves the function into a frame whose innermost scope did not exist before. -/
theorem frame_eq_iff {w : World} (hw : Session.Reachable w) {f : Ref} (hf : (w.cell f).payload.isFunction = true) :
    (∀ node frame, Ends (evaluate node frame w) →
      ∃ happened, (after (evaluate node frame w)).log = happened ++ w.log ∧
        (((after (evaluate node frame w)).cell f).frame = (w.cell f).frame ↔
          ∀ b frame args, .called b frame args ∈ happened → f ∉ args)) ∧
    ∀ g args, f ∈ args → Ends (call evaluate g args w) →
      (((after (call evaluate g args w)).cell f).frame = (w.cell f).frame ↔ ¬ Accepts w g args) ∧
      (Accepts w g args → ∃ frame n outer, ((after (call evaluate g args w)).cell f).frame = some frame ∧
        frame.scopes = n :: outer ∧ w.scopeCount ≤ n) := by
  have hscoped := hw.scoped
  -- A frame with a new scope is not the one that the function had.
  have moved {w' : World} (h : ∃ frame n outer, (w'.cell f).frame = some frame ∧ frame.scopes = n :: outer ∧
      w.scopeCount ≤ n) : (w'.cell f).frame ≠ (w.cell f).frame := by
    obtain ⟨frame, n, outer, hframe, hs, hn⟩ := h
    intro e
    rw [hframe] at e
    have := hscoped.callable (Payload.isCallable_of_isFunction hf) e.symm n (by rw [hs]; simp)
    omega
  constructor
  · intro node frame he
    obtain ⟨happened, h⟩ := (evaluate_moves node frame w he).history
    refine ⟨happened, h.log, fun e b fr args hm ha => moved (h.frame_of_passed hf hm ha) e, fun hn => ?_⟩
    have hnone : happened.findSome? (Event.movedInto f) = none := by
      rw [findSome?_eq_none_iff]
      intro e he
      cases e with
      | called b frame args => simp [Event.movedInto, hn b frame args he]
      | _ => rfl
    rw [h.frame hf, hnone]
    rfl
  · intro g args ha he
    have hr : Reaches default w (after (call evaluate g args w)) := call_moves evaluate_moves g args w he
    obtain ⟨happened, h⟩ := hr.history
    rcases call_cases he with ⟨hr, hc⟩ | ⟨hr, b, frame, v, hv, hlog⟩
    · exact ⟨⟨fun _ => hr, fun _ => by rw [hc f]⟩, fun h => absurd h hr⟩
    · -- The call is on top of the log when it is entered, and stays there.
      have hm : .called b frame args ∈ happened := by
        obtain ⟨u, hu, rfl⟩ := hv.entered
        obtain ⟨later, hl⟩ := hlog
        rw [h.log] at hl
        have hu' : (u.record (.called b frame args)).log = [.called b frame args] ++ w.log := by
          simp [World.record, hu.log, World.newScope]
        rw [hu', ← append_assoc] at hl
        rw [← append_cancel_right hl]
        simp
      have hnew := h.frame_of_passed hf hm ha
      exact ⟨⟨fun e => absurd e (moved hnew), fun h => absurd hr h⟩, fun _ => hnew⟩

namespace Passing

open Sketch

/-- A session where `x` is the number one, with the number five, a function that gives `x`, and one with the
parameters `h` and `x`. -/
def world : World :=
  let started := (Session.start ⟨"", [], "", []⟩ "").modifyScope globalScope (·.set "x" (some (.value truth)))
  ((started.alloc (integer 5)).alloc (function "f" [] (.give default (some (mention "x"))))).alloc
    (function "g" ["h", "x"] (number 0))

def five : Ref := initial.cells.size

def giver : Ref := five + 1

def taker : Ref := five + 2

theorem reachable_world : Session.Reachable world :=
  .later "main" (.start ⟨"", [], "", []⟩ "") ((((Reaches.bind _ "x" (.value truth) rfl).trans
    (.alloc _ _ _ (fun h => absurd h (by decide)) fun _ h => by cases h)).trans
      (.alloc _ _ _ (fun _ _ h => .inl (by cases h; rfl)) fun _ h => .inl (by cases h; rfl))).trans
        (.alloc _ _ _ (fun _ _ h => .inl (by cases h; rfl)) fun _ h => .inl (by cases h; rfl)))

theorem frame_ne_of_passed :
    Session.Reachable world ∧ Accepts world taker [giver, five] ∧
      ((after (call evaluate taker [giver, five] world)).cell giver).frame ≠
        (world.cell giver).frame := by
  have run : ∃ r v, call (evaluateTo 2) taker [giver, five] world = .ok r v := ⟨_, _, rfl⟩
  obtain ⟨r, v, hv⟩ := run
  have ends : Ends (call evaluate taker [giver, five] world) := by
    rw [(call_approximates (evaluateTo_approximates 2) taker [giver, five]).eq_of_ok hv]
    exact ends_ok r v
  have accepted : Accepts world taker [giver, five] := ⟨rfl, rfl⟩
  have h := (frame_eq_iff reachable_world (f := giver) rfl).2 taker [giver, five] (by simp) ends
  exact ⟨reachable_world, accepted, fun e => h.1.1 e accepted⟩

/-- A function that gives the global `x` gives the parameter `x` of the last call that it was passed to. -/
theorem giver_reads_parameter :
    (∃ r v, call evaluate giver [] world = .ok r v ∧ (v.cell r).payload = .number (.int 1)) ∧
    ∃ r v r' v', call evaluate taker [giver, five] world = .ok r v ∧ call evaluate giver [] v = .ok r' v' ∧
      (v'.cell r').payload = .number (.int 5) := by
  have approx (f : Ref) (args : List Ref) := call_approximates (evaluateTo_approximates 3) f args
  constructor
  · have run : ∃ r v, call (evaluateTo 3) giver [] world = .ok r v ∧
        (v.cell r).payload = .number (.int 1) := ⟨_, _, rfl, rfl⟩
    obtain ⟨r, v, hv, hp⟩ := run
    exact ⟨r, v, (approx giver []).eq_of_ok hv, hp⟩
  · have run : ∃ r v r' v', call (evaluateTo 3) taker [giver, five] world = .ok r v ∧
        call (evaluateTo 3) giver [] v = .ok r' v' ∧ (v'.cell r').payload = .number (.int 5) :=
      ⟨_, _, _, _, rfl, rfl, rfl⟩
    obtain ⟨r, v, r', v', hv, hv', hp⟩ := run
    exact ⟨r, v, r', v', (approx taker [giver, five]).eq_of_ok hv, (approx giver []).eq_of_ok hv', hp⟩

end Passing

end Utterance

import Utterance.Proofs.FunctionFrames
import Utterance.Proofs.MatchingEvaluate

/-!
# Matched worlds, one of which goes on by itself

The second of two matched worlds may go on alone, as long as nothing of it is seen that the first one has
(`Matching.Aside`). After that the worlds are matched in another way: what exists stands for what it stood for
(`Matching.Later`), and what is made from then on is matched anew (`Matching.Worlds.resume`).

`Matching.Along` compares two computations between which this happens again and again: if the first one ends with a
result or a signal that stops the program, so does the second, and the worlds are matched in a later way.
-/

namespace Utterance

variable {kept : List (Ref × Cell)} {s : Signal}

namespace Matching

open Eval

variable {M N K : Matching} {w w' v v' u u' : World} {α β γ δ σ τ : Type}

/-- What is matched in one world is matched in the same way in a later one. -/
structure Later (M : Matching) (w : World) (N : Matching) (v : World) : Prop where
  size : w.size ≤ v.size
  scopeCount : w.scopeCount ≤ v.scopeCount
  values : ∀ r r', r < w.size → M.values.pairs r r' → N.values.pairs r r'
  scopes : ∀ s s', s < w.scopeCount → M.scopes.pairs s s' → N.scopes.pairs s s'
  apart : N.apart = M.apart
  logged : N.logged = M.logged

theorem Later.same (M : Matching) (hg : Grows w v) : M.Later w M v :=
  ⟨hg.cells, hg.scopes, fun _ _ _ h => h, fun _ _ _ h => h, rfl, rfl⟩

theorem Later.trans (h : M.Later w N v) (h' : N.Later v K u) : M.Later w K u where
  size := Nat.le_trans h.size h'.size
  scopeCount := Nat.le_trans h.scopeCount h'.scopeCount
  values r r' hr hp := h'.values r r' (Nat.lt_of_lt_of_le hr h.size) (h.values r r' hr hp)
  scopes s s' hs hp := h'.scopes s s' (Nat.lt_of_lt_of_le hs h.scopeCount) (h.scopes s s' hs hp)
  apart := h'.apart.trans h.apart
  logged := h'.logged.trans h.logged

theorem Later.twins (h : M.Later w N v) {r r' : Ref} (hr : M.Twins w.size r r') : N.Twins v.size r r' :=
  ⟨Nat.lt_of_lt_of_le hr.1 h.size, h.values r r' hr.1 hr.2⟩

theorem Later.frames (h : M.Later w N v) {f f' : Frame} (hf : M.Frames f f') (hs : w.HasScopes f.scopes) :
    N.Frames f f' := by
  refine ⟨?_, hf.names⟩
  have hall : ∀ s ∈ f.scopes, s < w.scopeCount := hs
  have hscopes := hf.scopes
  generalize f.scopes = scopes at hall hscopes
  generalize f'.scopes = scopes' at hscopes
  induction hscopes with
  | nil => exact .nil
  | cons hp _ ih =>
    exact .cons (h.scopes _ _ (hall _ List.mem_cons_self) hp) (ih fun s hs => hall s (List.mem_cons_of_mem _ hs))

theorem Later.calm (h : M.Later w N v) : N.Calm u ↔ M.Calm u := by
  unfold Calm Spoils
  rw [h.apart, h.logged]

/-- The second world goes on by itself: what stands for something is still the same, and nothing else that the first
world has is changed. -/
structure Aside (M : Matching) (w w' v' : World) : Prop where
  size : w'.size ≤ v'.size
  scopeCount : w'.scopeCount ≤ v'.scopeCount
  cells : ∀ r r', M.Twins w.size r r' → M.Cells w.size (w.cell r) (v'.cell r')
  tables : v'.store.tables = w'.store.tables
  scopes : ∀ n < w'.scopeCount, v'.scope n = w'.scope n
  out : v'.out = w'.out
  input : v'.input = w'.input
  files : v'.files = w'.files
  loader : v'.loader = w'.loader
  noise : v'.log.countP Event.isNoise = w'.log.countP Event.isNoise
  logged : w'.log.length ≤ v'.log.length

namespace Aside

theorem refl (h : M.Worlds w w') : M.Aside w w' w' :=
  ⟨Nat.le_refl _, Nat.le_refl _, h.cells, rfl, fun _ _ => rfl, rfl, rfl, rfl, rfl, rfl, Nat.le_refl _⟩

variable (h : M.Aside w w' v')
include h

theorem alloc (hw : M.Worlds w w') (c : Cell) : M.Aside w w' (v'.alloc c) :=
  { h with
    size := Nat.le_trans h.size (by simp)
    cells := fun r r' hr => by
      have hlt : r' < v'.size := Nat.lt_of_lt_of_le ((hw.lt_iff hr).1 hr.1) h.size
      rw [World.cell_alloc, if_neg (Nat.ne_of_lt hlt)]
      exact h.cells r r' hr }

/-- A value may be changed such that it still stands for what it stands for, if for anything. -/
theorem modifyCell {q' : Ref} {f : Cell → Cell}
    (hf : ∀ q, M.Twins w.size q q' → M.Cells w.size (w.cell q) (f (v'.cell q'))) :
    M.Aside w w' (v'.modifyCell q' f) :=
  { h with
    size := by simpa using h.size
    cells := fun r r' hr => by
      rw [World.cell_modifyCell]
      split
      · next heq => obtain ⟨rfl, -⟩ := heq; exact hf r hr
      · exact h.cells r r' hr }

theorem newScope : M.Aside w w' v'.newScope :=
  { h with
    scopeCount := Nat.le_trans h.scopeCount (by simp)
    scopes := fun n hn => by
      rw [World.scope_newScope v' (Nat.lt_of_lt_of_le hn h.scopeCount)]
      exact h.scopes n hn }

theorem modifyScope {i : Nat} (hi : w'.scopeCount ≤ i)
    (f : Scope Binding → Scope Binding) : M.Aside w w' (v'.modifyScope i f) :=
  { h with
    scopeCount := by simpa using h.scopeCount
    scopes := fun n hn => by
      rw [World.scope_modifyScope_of_ne v' f (by omega)]
      exact h.scopes n hn }

theorem record {e : Event} (he : e.isNoise = false) : M.Aside w w' (v'.record e) :=
  { h with
    noise := by
      show (e :: v'.log).countP Event.isNoise = _
      rw [List.countP_cons, he, h.noise]
      rfl
    logged := Nat.le_succ_of_le h.logged }

end Aside

/-- After the second world went on by itself, the worlds are matched in a later way, and any values that stand for
nothing may be kept. -/
theorem Worlds.resume (h : M.Worlds w w') {a : Apart} (hM : M.apart = some a) (hw : w.Scoped) (ha : M.Aside w w' v')
    (hkept : ∀ e ∈ kept, e.1 < v'.size ∧ (∀ r, ¬ M.Twins w.size r e.1) ∧ v'.cell e.1 = e.2) :
    ∃ N : Matching, M.Later w N w ∧ N.kept = kept ∧ N.Worlds w v' := by
  have hvalues : ∀ r r', r < w.size → M.values.pairs r r' → r < w.size ∧ r' < v'.size := fun r r' hr hp =>
    ⟨hr, Nat.lt_of_lt_of_le ((h.sized.lt_iff hp).1 hr) ha.size⟩
  have hscopes : ∀ s s', s < w.scopeCount → M.scopes.pairs s s' →
      s < w.scopeCount ∧ s' < v'.scopeCount := fun s s' hs hp =>
    ⟨hs, Nat.lt_of_lt_of_le ((h.spread.lt_iff hp).1 hs) ha.scopeCount⟩
  have hlt : a.scope < w.scopeCount := (h.spread.lt_iff (M.inner a hM).1).2 (h.scope_lt hM)
  -- What exists stays paired, and from here on the next new value and scope of one world stand for those of the other.
  let N : Matching := {
    values := M.values.resume w.size w.size v'.size hvalues
    scopes := M.scopes.resume w.scopeCount w.scopeCount v'.scopeCount hscopes
    apart := M.apart
    kept := kept
    logged := M.logged
    logged' := M.logged'
    given := fun r hr => .inl ⟨Nat.lt_of_lt_of_le hr h.given, M.given r hr⟩
    global := .inl ⟨hw.global _ List.mem_cons_self, M.global⟩
    inner := fun b hb => by
      obtain rfl : b = a := Option.some.inj (hb.symm.trans hM)
      exact ⟨.inl ⟨hlt, (M.inner b hb).1⟩, (M.inner b hb).2⟩
    alone := fun e he r hp => by
      rcases hp with ⟨hr, hp⟩ | ⟨d, -, hd⟩
      · exact (hkept e he).2.1 r ⟨hr, hp⟩
      · exact Nat.not_lt.2 (hd ▸ Nat.le_add_right _ _) (hkept e he).1 }
  have later : M.Later w N w :=
    ⟨Nat.le_refl _, Nat.le_refl _, fun _ _ hr hp => .inl ⟨hr, hp⟩, fun _ _ hs hp => .inl ⟨hs, hp⟩, rfl, rfl⟩
  have back : ∀ r r', N.Twins w.size r r' → M.Twins w.size r r' := by
    rintro r r' ⟨hr, ⟨-, hp⟩ | ⟨d, hd, -⟩⟩
    · exact ⟨hr, hp⟩
    · omega
  have there : ∀ r r', M.Twins w.size r r' → N.Twins w.size r r' := fun _ _ hr => later.twins hr
  refine ⟨N, later, rfl, {
    given := h.given
    sized := ⟨0, rfl, rfl⟩
    spread := ⟨0, rfl, rfl⟩
    cells := fun r r' hr => ?_
    kept := fun e he => (hkept e he).2.2
    tables := by rw [ha.tables]; exact h.tables.mono fun _ _ ht => ht.mono there
    scopes := fun s s' hs => ?_
    own := fun b hb => by rw [ha.scopes _ (h.scope_lt hb)]; exact h.own b hb
    out := h.out.trans ha.out.symm
    input := h.input.trans ha.input.symm
    files := h.files.trans ha.files.symm
    loader := ?_
    noise := h.noise.trans ha.noise.symm
    logged := h.logged
    logged' := Nat.le_trans h.logged' ha.logged }⟩
  · have hc := ha.cells r r' (back r r' hr)
    exact ⟨hc.payload.mono there, hc.frame.imp rfl fun hp f hf f' hff =>
      later.frames hff (hw.callable hp hf)⟩
  · rcases hs with ⟨hs, hp⟩ | ⟨d, rfl, rfl⟩
    · rw [ha.scopes _ ((h.spread.lt_iff hp).1 hs)]
      exact (h.scopes s s' hp).mono there
    · -- neither of the scopes exists yet
      have hempty (x : World) : x.scope (x.scopeCount + d) = .empty := by simp [Store.scope]
      rw [hempty, hempty]
      exact ⟨.nil, rfl⟩
  · rw [ha.loader]
    refine ⟨h.loader.loading, h.loader.cache.imp fun e e' he => ⟨he.1, ?_, he.2.apart⟩⟩
    have hframes : M.Frames ⟨[], e.2.scope :: e.2.outer⟩ ⟨[], e'.2.scope :: e'.2.outer⟩ := ⟨he.2.scopes, rfl⟩
    exact (later.frames hframes fun s hs => (he.2.apart a hM s hs).2).scopes

/-- The worlds are matched while code runs in a frame, in the scope where the second world has a list of its own. -/
structure Running (M : Matching) (a : Apart) (frame : Frame) (w w' : World) : Prop where
  worlds : M.Worlds w w'
  apart : M.apart = some a
  frames : M.Frames frame frame
  sound : w.Scoped
  within : w.HasScopes frame.scopes

/-- A signal that ends the whole program or goes to a handler of errors, unless a function was called that was not
seen anywhere yet. -/
def Stops : Signal → Prop
  | .error _ | .exit | .interrupt => True
  | .fault f => f ≠ .noAttribute "NoneType" "symbol_table"
  | _ => False

/-- A computation ends with a result or with a signal that stops. -/
def Finishes (r : Outcome α) : Prop := ∀ s w, r = .error s w → Stops s

/-- Both end with related results or with the same signal, and the worlds are matched in a later way. -/
inductive Alongside (a : Apart) (frame : Frame) (M : Matching) (w : World) (R : Matching → Nat → α → β → Prop) :
    Outcome α → Outcome β → Prop
  | ok {N x y v v'} : M.Later w N v → N.Running a frame v v' → R N v.size x y →
    Alongside a frame M w R (.ok x v) (.ok y v')
  | error {N s s' v v'} : M.Later w N v → N.Worlds v v' → Stops s → s.Alike (N.Twins v.size) s' →
    Alongside a frame M w R (.error s v) (.error s' v')

/-- If the first computation finishes and nothing was spoiled, the second one finishes likewise. -/
def Along (a : Apart) (frame : Frame) (M : Matching) (R : Matching → Nat → α → β → Prop) (x : Eval α) (y : Eval β)
    (w w' : World) : Prop :=
  Finishes (x w) → M.Calm (after (x w)) → Alongside a frame M w R (x w) (y w')

variable {a : Apart} {frame : Frame} {R : Matching → Nat → α → β → Prop} {S : Matching → Nat → γ → δ → Prop}

theorem Stops.ne_exhausted (h : Stops s) : s ≠ .exhausted := fun hs => by rwa [hs] at h

theorem Stops.alike {T T' : Ref → Ref → Prop} {s' : Signal} (h : Stops s) (hs : s.Alike T s') : s.Alike T' s' := by
  cases hs with
  | error ht hd => exact .error ht hd
  | fault f => exact .fault f
  | exit => exact .exit
  | interrupt => exact .interrupt
  | _ => exact h.elim

theorem Finishes.ends {r : Outcome α} (h : Finishes r) : Ends r := fun w hr => h _ w hr

theorem finishes_of_bind {x : Eval α} {f : α → Eval γ} (h : Finishes ((x >>= f) w)) : Finishes (x w) := by
  intro s v hx
  exact h s v (bind_error hx)

theorem Alongside.later {x : Outcome α} {y : Outcome β} (h : Alongside a frame N v R x y) (hl : M.Later w N v) :
    Alongside a frame M w R x y := by
  cases h with
  | ok hn hr hx => exact .ok (hl.trans hn) hr hx
  | error hn hw hs hss => exact .error (hl.trans hn) hw hs hss

theorem Alongside.ends {x : Outcome α} {y : Outcome β} (h : Alongside a frame M w R x y) : Ends y := by
  cases h with
  | ok => exact ends_ok _ _
  | error _ _ _ hs => cases hs <;> exact ends_error.2 (by simp)

namespace Running

theorem moved (h : M.Running a frame w w') (hr : Reaches frame w v) (hv : M.Worlds v v') : M.Running a frame v v' :=
  ⟨hv, h.apart, h.frames, h.sound.reaches h.within hr, h.within.grows hr.grows⟩

theorem aside (h : M.Running a frame w w') (ha : M.Aside w w' v')
    (hkept : ∀ e ∈ kept, e.1 < v'.size ∧ (∀ r, ¬ M.Twins w.size r e.1) ∧ v'.cell e.1 = e.2) :
    ∃ N : Matching, M.Later w N w ∧ N.kept = kept ∧ N.Running a frame w v' := by
  obtain ⟨N, hl, hk, hv⟩ := h.worlds.resume h.apart h.sound ha hkept
  exact ⟨N, hl, hk, hv, hl.apart.trans h.apart, hl.frames h.frames h.within, h.sound, h.within⟩

end Running

namespace Along

variable {x : Eval α} {y : Eval β} {f : α → Eval γ} {g : β → Eval δ}

theorem later (h : Along a frame N R x y w v') (hl : M.Later w N w) : Along a frame M R x y w v' :=
  fun hx hc => (h hx (hl.calm.2 hc)).later hl

theorem pure {p : α} {q : β} (h : M.Running a frame w w') (hr : R M w.size p q) :
    Along a frame M R (pure p) (pure q) w w' :=
  fun _ _ => .ok (.same M ⟨Nat.le_refl _, Nat.le_refl _, List.suffix_rfl⟩) h hr

theorem bind [hk : ∀ p, Keeps M.Calm (f p)] (hx : Along a frame M R x y w w')
    (hf : ∀ N p q v v', M.Later w N v → N.Running a frame v v' → R N v.size p q → Along a frame N S (f p) (g q) v v') :
    Along a frame M S (x >>= f) (y >>= g) w w' := by
  intro he hc
  have ho := hx (finishes_of_bind he) (before_of_bind hk he.ends hc)
  generalize hp : x w = p, hq : y w' = q at ho
  cases ho with
  | ok hl hr hpq =>
    rw [bind_ok hp] at he hc ⊢
    rw [bind_ok hq]
    exact (hf _ _ _ _ _ hl hr hpq he (hl.calm.2 hc)).later hl
  | error hl hv hs hss =>
    rw [bind_error hp, bind_error hq]
    exact .error hl hv hs hss

theorem meets {Q : Nat → α → β → Prop} [k : ∀ p, Keeps M.Calm (f p)] (h : M.Running a frame w w')
    (hm : Moves frame x) (hx : M.Meets M.Calm Q x y w w')
    (hf : ∀ p q v v', Lasts w v → M.Running a frame v v' → Q v.size p q → Along a frame M S (f p) (g q) v v') :
    Along a frame M S (x >>= f) (y >>= g) w w' := by
  intro he hc
  have hfirst := finishes_of_bind he
  have hreach := hm w hfirst.ends
  have ho := hx hfirst.ends (before_of_bind k he.ends hc)
  generalize hp : x w = p, hq : y w' = q at ho hreach hfirst
  cases ho with
  | ok _ hv hpq =>
    rw [bind_ok hp] at he hc ⊢
    rw [bind_ok hq]
    exact (hf _ _ _ _ hreach.lasts (h.moved hreach hv) hpq he hc).later (.same M hreach.grows)
  | error _ hv hss =>
    rw [bind_error hp, bind_error hq]
    exact .error (.same M hreach.grows) hv (hfirst _ _ rfl) hss
  | lost hs =>
    have hstops := hfirst _ _ rfl
    rw [hs.2] at hstops
    exact absurd rfl hstops

theorem payload {r r' : Ref} {f : Payload → Eval α} {g : Payload → Eval β}
    (h : Along a frame M R (f (w.cell r).payload) (g (w'.cell r').payload) w w') :
    Along a frame M R (payload r >>= f) (payload r' >>= g) w w' := h

theorem evaluate {x : Eval α} {node : Node} {R : Matching → Nat → α → Ref → Prop}
    (h : Along a frame M R x (step evaluate node frame) w w') : Along a frame M R x (evaluate node frame) w w' := by
  intro he hc
  have ho := h he hc
  rw [evaluate_eq ho.ends]
  exact ho

theorem iterate {step : σ → Eval (σ ⊕ α)} {step' : τ → Eval (τ ⊕ β)} {Q : Matching → Nat → σ → τ → Prop}
    [hk : ∀ s, Growing (step s)]
    (h : ∀ N s t v v', M.Later w N v → Lasts w v → N.Running a frame v v' → Q N v.size s t →
      Along a frame N (fun K n => Sum.LiftRel (Q K n) (R K n)) (step s) (step' t) v v')
    {s : σ} {t : τ} (hw : M.Running a frame w w') (hq : Q M w.size s t) :
    Along a frame M R (Eval.iterate step s) (Eval.iterate step' t) w w' := by
  intro he hc
  have hrefl : M.Later w M w := .same M ⟨Nat.le_refl _, Nat.le_refl _, List.suffix_rfl⟩
  refine Round.iterate (C := M.Calm) (O := fun (k : Matching × World) x y => Alongside a frame k.1 k.2 R x y)
    (S := fun k s v t v' => M.Later w k.1 v ∧ k.2 = v ∧ Lasts w v ∧ k.1.Running a frame v v' ∧ Q k.1 v.size s t)
    (E := Stops) (fun h => h) (k := (M, w))
    (fun k s v t v' hS hends hc => ?_) ⟨hrefl, rfl, .refl w, hw, hq⟩ he hc
  obtain ⟨N, _⟩ := k
  obtain ⟨hl, rfl, hlasts, hv, hq⟩ := hS
  have ho := h N s t _ v' hl hlasts hv hq hends (hl.calm.2 hc)
  have hgrowing := (hk s).lasts _ (Finishes.ends hends)
  generalize step s _ = x, step' t v' = y at ho hgrowing ⊢
  cases ho with
  | @ok K _ _ u u' hn hu hr =>
    cases hr with
    | @inl s t hq =>
      have hnext : M.Later w (K, u).1 u ∧ (K, u).2 = u ∧ Lasts w u ∧ (K, u).1.Running a frame u u' ∧
          Q (K, u).1 u.size s t := ⟨hl.trans hn, rfl, hlasts.trans hgrowing, hu, hq⟩
      exact .next hnext fun _ _ ho => ho.later hn
    | inr hr => exact .done (.ok hn hu hr)
  | error hn hu hs hss => exact .failed (.error hn hu hs hss)

end Along

end Matching

end Utterance

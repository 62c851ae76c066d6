import Mathlib.Data.Rat.Floor
import Utterance.Proofs.Collections
import Utterance.Proofs.FunctionFrames
import Utterance.Proofs.LoopRotation
import Utterance.Proofs.Scopes

/-!
# Counted loops

A loop that counts from `a` up to `b` by `s` runs its body `⌈(b - a) / s⌉₊` times, with its variable bound to `a`, `a
+ s`, `a + 2 * s` and so on, unless a run of the body ends the loop earlier (`evaluate_count`). What the body assigns,
to the variable or to the names that the bounds came from, does not matter: the next count is kept apart from the
variable, and a number that exists stays the same number whatever is evaluated (`Reaches.hasInt`).

The runs are listed by `runs`, from the number of counts that are left. This number is one less after each run
(`counts_step`), so the loop and its list of runs go down together (`ended_counting`).
-/

namespace Utterance

open Eval World List

variable {b : Int} {r : Ref} {run : Run}

variable {w : World}

def World.HasInt (w : World) (r : Ref) (i : Int) : Prop :=
  r < w.size ∧ (w.cell r).payload = .number (.int i)

theorem notMem_changedBy {happened : List Event} (h : (w.cell r).payload.isList = false) :
    Stock.cell r ∉ changedBy w.store happened := by
  rintro ⟨e, -, he⟩
  unfold Event.changes at he
  split at he
  · split at he
    · next hb =>
      obtain rfl : _ = r := by injection he with he; injection he
      rw [h] at hb
      exact Bool.noConfusion hb.2
    · split at he
      · next q _ _ hq =>
        rcases w.store.stockOf_cases q with hs | ⟨n, -, hs⟩
        · exact hq.2 hs
        · rw [hs] at he
          cases he
      · cases he
  · cases he

theorem Reaches.hasInt {v : World} (h : Reaches frame w v) {i : Int} (hr : w.HasInt r i) : v.HasInt r i := by
  obtain ⟨happened, -, hk⟩ := h.keepsAfter
  refine ⟨Nat.lt_of_lt_of_le hr.1 hk.cells, ?_⟩
  have hlist : (v.cell r).payload.isList = false := by
    have htype := h.lasts.typeName hr.1
    rw [hr.2] at htype
    cases hp : (v.cell r).payload with
    | list es =>
      rw [hp] at htype
      have hne : ("List" : String) ≠ "Number" := by decide
      exact absurd htype hne
    | _ => rfl
  have hheld := hk.contents (notMem_changedBy hlist) (k := .cell r) hr.1
  injection hheld with hp
  rw [hp, hr.2]

theorem World.HasInt.scalar {i : Int} (h : w.HasInt r i) : Eval.scalar r w = .ok (.int i) w := by
  unfold Eval.scalar
  rw [bind_ok (show payload r w = .ok _ w from rfl), h.2]
  rfl

/-- The world in which the next run starts: a new number, and the variable bound to it. -/
def World.counting (w : World) (frame : Frame) (name : String) (i : Int) : World :=
  match frame.scopes with
  | [] => w.alloc (.fresh (.number (.int i)))
  | n :: _ => (w.alloc (.fresh (.number (.int i)))).modifyScope n (·.set name (some (.value w.size)))

def World.Counts (w : World) (frame : Frame) (name : String) (i : Int) : Prop :=
  ∃ r, w.store.lookup frame name = some (.value r) ∧ w.HasInt r i

/-- A run of the body of a loop: where it starts and how it ends. -/
structure Run where
  start : World
  outcome : Outcome Ref

/-- Where the next run starts from, if there is one: after a run that ends normally or skips the rest. -/
def Run.next? (run : Run) : Option World :=
  match run.outcome with
  | .ok _ v | .error .skip v => some v
  | .error _ _ => none

/-- At most `n` runs of the body of a loop, the variable bound to `i`, `i + s`, `i + 2 * s` and so on: each run starts
where the one before it left off, and there is none after a run that ends the loop. -/
def runs (frame : Frame) (name : String) (body : Node) (s : Int) : Nat → Int → World → List Run
  | 0, _, _ => []
  | n + 1, i, w =>
    let run : Run := ⟨w.counting frame name i, evaluate body frame (w.counting frame name i)⟩
    run :: run.next?.elim [] (runs frame name body s n (i + s))

/-- How a loop ends that starts in a world and runs its body so: without a value, unless the last run ended with an
error, a given value or whatever else passes through a loop. -/
def closing (w : World) (rs : List Run) : Outcome Ref :=
  match rs.getLast? with
  | none => .ok Store.null w
  | some run => followedBy (.ok Store.null) run.outcome

section

variable {frame : Frame} {name : String} {body : Node} {v : World} {i s : Int} {n : Nat}

theorem closing_of_next (h : run.next? = some v) (w : World) (rs : List Run) :
    closing w (run :: rs) = closing v rs := by
  cases rs with
  | cons r rs => rfl
  | nil =>
    show followedBy _ run.outcome = .ok Store.null v
    unfold Run.next? at h
    split at h
    · next ho => rw [ho]; exact congrArg _ (Option.some.inj h)
    · next ho => rw [ho]; exact congrArg _ (Option.some.inj h)
    · cases h

theorem World.counting_scopes (w : World) (frame : Frame) (name : String) (i : Int) :
    (w.counting frame name i).scopeCount = w.scopeCount := by
  unfold counting
  split
  · rfl
  · exact Array.size_modify

theorem World.HasInt.counting {k : Int} (h : w.HasInt r k) (frame : Frame) (name : String) (i : Int) :
    (w.counting frame name i).HasInt r k := by
  have halloc : (w.alloc (.fresh (.number (.int i)))).HasInt r k := by
    refine ⟨Nat.lt_of_lt_of_le h.1 (by simp), ?_⟩
    rw [cell_alloc, if_neg (Nat.ne_of_lt h.1), h.2]
  unfold World.counting
  split
  · exact halloc
  · exact halloc

theorem World.counts_counting (hf : frame.scopes ≠ []) (hw : w.HasScopes frame.scopes) (name : String) (i : Int) :
    (w.counting frame name i).Counts frame name i := by
  cases hs : frame.scopes with
  | nil => exact absurd hs hf
  | cons m outer =>
    have hm : m < w.scopeCount := hw m (by rw [hs]; exact mem_cons_self)
    have hstart : w.counting frame name i =
        (w.alloc (.fresh (.number (.int i)))).modifyScope m (·.set name (some (.value w.size))) := by
      unfold counting
      rw [hs]
    rw [hstart]
    have hscope := scope_modifyScope_self (w.alloc (.fresh (.number (.int i))))
      (·.set name (some (.value w.size))) hm
    refine ⟨w.size, ?_, by simp, ?_⟩
    · unfold Store.lookup
      rw [hs, map_cons, Scope.lookup, ← World.scope, hscope, Scope.get?_set, if_pos rfl]
      rfl
    · show ((w.alloc _).cell _).payload = _
      rw [cell_alloc, if_pos rfl]
      rfl

theorem reaches_of_next (h : (Run.mk w (evaluate body frame w)).next? = some v) : Reaches frame w v := by
  have hm := evaluate_moves body frame
  unfold Run.next? at h
  split at h
  · next ho =>
    rw [← Option.some.inj h]
    exact hm.reaches ho (ends_ok _ _)
  · next ho =>
    rw [← Option.some.inj h]
    exact hm.reaches ho (ends_error.2 nofun)
  · cases h

theorem counts_of_mem_runs (hf : frame.scopes ≠ []) {k : Nat} (hw : w.HasScopes frame.scopes)
    (h : (runs frame name body s n i w)[k]? = some run) : run.start.Counts frame name (i + k * s) := by
  induction n generalizing i w k with
  | zero => cases h
  | succ n ih =>
    unfold runs at h
    have hstart : (w.counting frame name i).HasScopes frame.scopes := fun m hm => by
      rw [counting_scopes]
      exact hw m hm
    cases k with
    | zero =>
      obtain rfl := Option.some.inj h
      simpa using counts_counting hf hw name i
    | succ k =>
      rw [getElem?_cons_succ] at h
      cases hnext : (Run.mk (w.counting frame name i) (evaluate body frame (w.counting frame name i))).next? with
      | none =>
        rw [hnext] at h
        cases h
      | some v =>
        rw [hnext] at h
        have hcount := ih (hstart.grows (reaches_of_next hnext).grows) h
        have hsum : i + s + k * s = i + (k + 1 : Nat) * s := by push_cast; ring
        rwa [hsum] at hcount

theorem length_runs (h : ∀ run ∈ runs frame name body s n i w, run.next?.isSome) :
    (runs frame name body s n i w).length = n := by
  induction n generalizing i w with
  | zero => rfl
  | succ n ih =>
    unfold runs at h ⊢
    obtain ⟨v, hv⟩ := Option.isSome_iff_exists.1 (h _ mem_cons_self)
    dsimp only at h ⊢
    rw [hv] at h ⊢
    rw [length_cons]
    exact congrArg (· + 1) (ih fun run hrun => h run (mem_cons_of_mem _ hrun))

theorem counts_step (hs : 1 ≤ s) (h : i < b) : ⌈((b - i : ℤ) : ℚ) / s⌉₊ = ⌈((b - (i + s) : ℤ) : ℚ) / s⌉₊ + 1 := by
  have hs' : (0 : ℚ) < s := by exact_mod_cast hs
  have hdiv : ((b - i : ℤ) : ℚ) / s = ((b - (i + s) : ℤ) : ℚ) / s + 1 := by
    field_simp
    push_cast
    ring
  have hpos : 0 < ⌈((b - (i + s) : ℤ) : ℚ) / s⌉ + 1 := by
    rw [← Int.ceil_add_one, ← hdiv]
    exact Int.ceil_pos.2 (div_pos (by exact_mod_cast Int.sub_pos_of_lt h) hs')
  rw [← Int.ceil_toNat, ← Int.ceil_toNat, hdiv, Int.ceil_add_one]
  omega

theorem counts_done (hs : 1 ≤ s) (h : b ≤ i) : ⌈((b - i : ℤ) : ℚ) / s⌉₊ = 0 := by
  have hs' : (0 : ℚ) < s := by exact_mod_cast hs
  exact Nat.ceil_eq_zero.2 (div_nonpos_of_nonpos_of_nonneg (by exact_mod_cast Int.sub_nonpos_of_le h) hs'.le)

theorem loopBody_cases (body : Node) (frame : Frame) (w : World) :
    (∃ v, (Run.mk w (evaluate body frame w)).next? = some v ∧ loopBody evaluate frame body w = .ok true v) ∨
      (Run.mk w (evaluate body frame w)).next? = none ∧
        ((∃ v, evaluate body frame w = .error .cut v ∧ loopBody evaluate frame body w = .ok false v) ∨
          ∃ s v, followedBy (.ok Store.null) (evaluate body frame w) = .error s v ∧
            loopBody evaluate frame body w = .error s v) := by
  cases hb : evaluate body frame w with
  | ok r v => exact .inl ⟨v, rfl, tryCatch_ok (bind_ok hb)⟩
  | error s v =>
    have hl : loopBody evaluate frame body w = _ := tryCatch_error (bind_error hb)
    rw [hl]
    cases s with
    | skip => exact .inl ⟨v, rfl, rfl⟩
    | cut => exact .inr ⟨rfl, .inl ⟨v, rfl, rfl⟩⟩
    | _ => exact .inr ⟨rfl, .inr ⟨_, v, rfl, rfl⟩⟩

variable {rb : Ref}

theorem ordered_lt (i b : Int) : Scalar.ordered .lt (.int i) (.int b) = .ok (decide (i < b)) := by
  have hlt : (compare i b == .lt) = decide (i < b) := by
    rw [Bool.eq_iff_iff, beq_iff_eq, decide_eq_true_iff, compare_lt_iff_lt]
  exact congrArg Except.ok hlt

/-- A round runs the body with the variable bound to the count, if the count is below the bound. -/
theorem countRound_eq (hb : w.HasInt rb b) :
    countRound evaluate frame name rb (.int s) body (.int i) w =
      if i < b then
        (do return if ← loopBody evaluate frame body then .inl (.int (i + s)) else .inr () : Eval (Scalar ⊕ Unit))
          (w.counting frame name i)
      else .ok (.inr ()) w := by
  have hlift : lift (Scalar.ordered .lt (.int i) (.int b)) w = .ok (decide (i < b)) w := by
    rw [ordered_lt]
    rfl
  unfold countRound
  rw [bind_ok hb.scalar, bind_ok hlift]
  by_cases h : i < b
  · rw [if_pos h, decide_eq_true h]
    unfold counting Eval.bind
    cases frame.scopes <;> rfl
  · rw [if_neg h, decide_eq_false h]
    rfl

theorem ended_counting (hs : 1 ≤ s) (hb : w.HasInt rb b) (hn : ⌈((b - i : ℤ) : ℚ) / s⌉₊ = n) :
    ((iterate? (countRound evaluate frame name rb (.int s) body) (.int i) w).bind fun r => ended (loopValue r)) =
      ended (closing w (runs frame name body s n i w)) := by
  induction n generalizing i w with
  | zero =>
    have hdone : ¬ i < b := by
      intro h
      have := counts_step hs h
      omega
    rw [iterate?, countRound_eq hb, if_neg hdone]
    rfl
  | succ n ih =>
    have hlt : i < b := by
      refine Int.lt_of_not_ge fun h => ?_
      have := counts_done hs h
      omega
    have hn' : ⌈((b - (i + s) : ℤ) : ℚ) / s⌉₊ = n := by
      have := counts_step hs hlt
      omega
    rw [iterate?, countRound_eq hb, if_pos hlt, runs]
    rcases loopBody_cases body frame (w.counting frame name i) with ⟨v, hv, hl⟩ | ⟨hv, ⟨v, hcut, hl⟩ | ⟨s', v, he, hl⟩⟩
    · rw [bind_ok hl, hv, closing_of_next hv]
      exact ih ((reaches_of_next hv).hasInt (hb.counting frame name i)) hn'
    · rw [bind_ok hl, hv]
      rw [hcut]
      rfl
    · rw [bind_error hl, hv]
      show _ = ended (followedBy _ (evaluate body frame _))
      rw [he]
      rfl

end

/-- A loop that counts from `a` up to `b` by `s` ends as its runs do, one after the other. In the run at place `k` the
variable means `a + k * s` at the start, whatever the runs before it assigned, and unless a run ends the loop there
are `⌈(b - a) / s⌉₊` of them. -/
theorem evaluate_count {span : Span} {name : Token} {first last body : Node} {stride : Option Node} {frame : Frame}
    {w w₁ w₂ w₃ : World} {ra rb : Ref} {a b s : Int} (hfirst : evaluate first frame w = .ok ra w₁) (ha : w₁.HasInt ra a)
    (hlast : evaluate last frame w₁ = .ok rb w₂) (hb : w₂.HasInt rb b)
    (hstride : strideOf evaluate frame stride w₂ = .ok (.int s) w₃) (hs : 1 ≤ s) (hf : frame.scopes ≠ [])
    (hw : w.HasScopes frame.scopes) :
    let n := ⌈((b - a : ℤ) : ℚ) / s⌉₊
    let rs := runs frame name.text body s n a w₃
    ended (evaluate (.count span name first last stride body) frame w) = ended (closing w₃ rs) ∧
      (∀ (k : Nat) (run : Run), rs[k]? = some run → run.start.Counts frame name.text (a + k * s)) ∧
      ((∀ run ∈ rs, run.next?.isSome) → rs.length = n) := by
  have hr₁ : Reaches frame w w₁ := (evaluate_moves first frame).reaches hfirst (ends_ok _ _)
  have hr₂ : Reaches frame w₁ w₂ := (evaluate_moves last frame).reaches hlast (ends_ok _ _)
  have hr₃ : Reaches frame w₂ w₃ :=
    ((assembled_strideOf (S := False) (b := false) False.elim).moves evaluate_moves).reaches hstride (ends_ok _ _)
  refine ⟨?_, fun k run => counts_of_mem_runs hf (hw.grows (hr₁.trans (hr₂.trans hr₃)).grows), length_runs⟩
  rw [← ended_counting hs (hr₃.hasInt hb) rfl, ← ended_iterate, ended_evaluate]
  refine congrArg ended ?_
  refine (bind_ok hfirst).trans ((bind_ok hlast).trans ((bind_ok hstride).trans ?_))
  exact bind_ok (((hr₂.trans hr₃).hasInt ha).scalar)

namespace CountedLoops

open Sketch

def world : World := .small [integer 0, integer 0, integer 1, integer 6] [("n", 3)]

def body : Node :=
  .list default [.assign default (name "i") (number 9), .assign default (name "n") (number 0)]

def one : World := after (evaluateTo 1 (number 1) top world)

def six : World := after (evaluateTo 1 (mention "n") top one)

/-- The world when the loop begins to count, with the numbers 1, 6 and 2. -/
def begun : World := after (evaluateTo 1 (number 2) top six)

/-- A loop over `i` from 1 up to `n` by 2 has three runs, though its body assigns to both. -/
theorem evaluate_count_assigned : ⌈((6 - 1 : ℤ) : ℚ) / (2 : ℤ)⌉₊ = 3 ∧
    ended (evaluate (.count default (name "i") (number 1) (mention "n") (some (number 2)) body) top world) =
      ended (closing begun (runs top "i" body 2 3 1 begun)) ∧
    (∀ (k : Nat) (run : Run), (runs top "i" body 2 3 1 begun)[k]? = some run → run.start.Counts top "i" (1 + k * 2)) ∧
    ((∀ run ∈ runs top "i" body 2 3 1 begun, run.next?.isSome) → (runs top "i" body 2 3 1 begun).length = 3) := by
  have hn : ⌈((6 - 1 : ℤ) : ℚ) / (2 : ℤ)⌉₊ = 3 := by
    rw [Nat.ceil_eq_iff (by decide)]
    norm_num
  have happrox := evaluateTo_approximates 1
  have hfirst : evaluate (number 1) top world = .ok 4 one := (happrox _ _).eq_of_ok rfl
  have hlast : evaluate (mention "n") top one = .ok 5 six := (happrox _ _).eq_of_ok rfl
  have hnumber : evaluate (number 2) top six = .ok 6 begun := (happrox _ _).eq_of_ok rfl
  have hstride : strideOf evaluate top (some (number 2)) six = .ok (.int 2) begun := bind_ok hnumber
  have hscopes : world.HasScopes top.scopes := by
    intro n hn
    rw [mem_singleton.1 hn]
    exact Nat.one_pos
  have hloop := @evaluate_count default (name "i") _ _ body _ _ _ _ _ _ _ _ 1 6 2 hfirst ⟨by decide, rfl⟩ hlast
    ⟨by decide, rfl⟩ hstride (by decide) (by decide) hscopes
  exact ⟨hn, hn ▸ hloop⟩

end CountedLoops

end Utterance

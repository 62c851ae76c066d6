import Utterance.Proofs.Collections

/-!
# A built-in function that fails with an error changes nothing

A built-in function checks its arguments, which changes nothing (`Looks`), and then makes its result (`Works`) or
changes its first argument, which never fails with an error. So where it ends with an error, it left everything as it
was (`Tidy`, `builtin_tidy`). Before that its call is entered: a new scope is made and the arguments are bound there,
but nothing that existed holds or binds something else (`call_unchanged`).

A built-in function may also fail for good while it is at work, and then what it printed stays printed
(`input_int` asks again until the input ends).
-/

namespace Utterance

namespace Call

open Eval

variable (c : Call)

theorem append_tidy (r value : Ref) : Tidy (c.append r value) :=
  (c.list_reads r _).andThen fun _ _ _ _ h => nomatch h

theorem pop_tidy (r index : Ref) : Tidy (c.pop r index) := by
  refine (c.list_reads r _).andThen fun es => (c.number_reads index _).andThen fun i => ?_
  split
  · exact fun _ _ _ h => nomatch h
  · exact (Reads.throw _).tidy

theorem extend_tidy (a b : Ref) : Tidy (c.extend a b) :=
  (c.list_reads a _).andThen fun _ => (c.list_reads b _).andThen fun _ _ _ _ h => nomatch h

/-- A key is taken out only if it is there; then there is nothing left that could fail. -/
theorem remove_tidy (r k : Ref) : Tidy (c.remove r k) := by
  refine Reads.andThen (x := cell r) (fun _ => rfl) fun cell => ?_
  split
  · refine (c.key_reads k).andThen fun key => Reads.andThen (x := table _) (fun _ => rfl) fun t => ?_
    split
    · exact fun _ _ _ h => nomatch h
    · exact (lift_reads _).andThen fun _ => (Reads.throw _).tidy
  · refine Reads.andThen (x := store) (fun _ => rfl) fun _ => Reads.andThen (x := ofPrinting _) ?_ fun m => ?_
    · exact (inferInstance : Settled (fun _ => True) none _).reads
    · split
      · exact fun _ _ _ h => nomatch h
      · exact (Reads.throw _).tidy
  · exact (Reads.throw _).tidy

end Call

namespace Eval

/-- A built-in function that ends with an error leaves everything as it was; only a script can do something before. -/
theorem builtin_tidy (ev : Evaluator) (c : Call) {b : Builtin} (hb : b ≠ .run) (args : List Ref) :
    Tidy (builtin ev c b args) := by
  by_cases hp : b.isPlain = true
  · exact (builtin_neat ev c hp args : Neat (fun _ => True) _ _).tidy
  unfold builtin
  split
  case h_5 => exact c.append_tidy _ _
  case h_6 => exact c.pop_tidy _ _
  case h_7 => exact c.extend_tidy _ _
  case h_11 => exact c.remove_tidy _ _
  case h_39 => exact (Reads.pure _).tidy
  all_goals first | exact absurd rfl hb | exact absurd rfl hp

end Eval

open Eval

/-- Everything that existed holds what it held, every scope binds what it bound, and nothing was printed. -/
structure Unchanged (w w' : World) : Prop where
  held : ∀ r, w.store.Has r → w'.store.held r = w.store.held r
  scope : ∀ n < w.scopeCount, w'.scope n = w.scope n
  out : w'.out = w.out

theorem Unchanged.refl (w : World) : Unchanged w w := ⟨fun _ _ => rfl, fun _ _ => rfl, rfl⟩

theorem Unchanged.newScope (w : World) : Unchanged w w.newScope :=
  ⟨fun _ _ => rfl, fun _ hn => World.scope_newScope w hn, rfl⟩

/-- Entering a call binds the arguments in a new scope, and moves them there, but leaves what they hold. -/
theorem Enters.unchanged {b : Option Builtin} {frame inner : Frame} {args : List Ref} {w v : World}
    (h : Enters frame b inner args w v) : Unchanged w v where
  held _ hr := h.keeps.held hr (Set.notMem_empty _)
  scope _ hn := h.scope hn
  out := by
    obtain ⟨u, hu, rfl⟩ := h.entered
    exact hu.out

/-- A call of a built-in function that ends with an error, whatever its arguments are and how many of them, changes
nothing: no collection that existed, no scope, and nothing is printed. A script that is run may do all this before it
fails. -/
theorem call_unchanged {ev : Evaluator} {f : Ref} {args : List Ref} {b : Builtin} {w v : World} {d : Diagnostic}
    (hf : (w.cell f).payload = .builtin b) (hb : b ≠ .run) (h : call ev f args w = .error (.error d) v) :
    Unchanged w v := by
  have hcall : call ev f args w = (do
      let frame ← enterWith f (w.cell f) (some b) b.name b.params args
      builtin ev ⟨(w.cell f).start, (w.cell f).stop, frame⟩ b args) w := by
    unfold call
    rw [bind_ok (show cell f w = .ok (w.cell f) w from rfl), hf]
  rw [hcall] at h
  rcases enterWith_cases default (some b) b.name b.params args (by rw [hf]; rfl) with
    ⟨-, s, u, hu, hw⟩ | ⟨-, frame, u, hu, he⟩
  · -- the call is not entered: too many or too few arguments
    rw [bind_error hu] at h
    obtain rfl : u = v := by injection h
    rcases hw with rfl | rfl
    · exact .refl _
    · exact .newScope w
  · rw [bind_ok hu] at h
    obtain rfl := builtin_tidy ev _ hb args u v d h
    exact he.unchanged

namespace Refusals

/-- A list that holds itself, and the function `pop`. -/
def world : World :=
  .small [.fresh (.number (.int 0)), .fresh (.list #[0, 1]), ⟨.builtin .pop, none, none, some (programFrame "main")⟩]
    [("xs", 1), ("pop", 2)]

/-- `pop(xs, xs)` is refused. -/
theorem call_unchanged_pop : ∃ d v, call evaluate 2 [1, 1] world = .error (.error d) v ∧ Unchanged world v :=
  ⟨_, _, rfl, call_unchanged (b := .pop) rfl (by decide) (rfl : call evaluate 2 [1, 1] world = _)⟩

end Refusals

end Utterance

import Utterance.Proofs.MatchingModules

/-!
# Calls in matched worlds

A call does the same in matched worlds if the evaluator does (`call_meets`). It runs in the frame that is kept with
the function. That frame may be another one only for the function `append`, of which nothing depends on the frame but
where its arguments were seen; this does not matter for values that cannot be called.
-/

namespace Utterance

variable {callee callee' : Cell}

namespace Matching

open Eval List

section

variable {ev : Evaluator} [h : Moving ev]

instance (f : Ref) (args : List Ref) : Growing (call ev f args) :=
  growing_of_moves (call_moves h.moves f args : Moves default _)

instance (c : Call) (b : Builtin) (args : List Ref) : Growing (builtin ev c b args) :=
  ⟨fun w he => (builtin_reaches h.moves c b args w he : BuiltinReaches default b args w _).lasts⟩

end

variable {M : Matching} {ev ev' : Evaluator} {frame frame' : Frame} {w w' : World} {r r' : Nat} {α β : Type}
  {R : Nat → α → β → Prop}

variable {args args' : List Ref}

theorem checkArgs_steady (hw : M.Worlds w w') (hr : M.Twins w.size r r') (callee callee' : Cell)
    (params : List String) (hl : args.length = args'.length) :
    M.Steady (fun _ _ _ => params.length = args.length) (checkArgs r callee params args)
      (checkArgs r' callee' params args') w w' := by
  unfold checkArgs
  rw [← hl]
  split
  · exact .shown hw hr fun s => .error hw _
  · split
    · exact .shown hw hr fun s => .error hw _
    · exact .pure hw (by omega)

/-- Frames of a call: any name may be bound there. -/
structure Opened (M : Matching) (f f' : Frame) : Prop where
  head : Option.Rel M.scopes.pairs f.scopes.head? f'.scopes.head?
  binds : ∀ name, M.Binds f name

theorem bindArgs_steady (hw : M.Worlds w w') (ho : Opened M frame frame') (hf : M.Frames frame frame')
    (params : List String) (h : Forall₂ (M.Twins w.size) args args') :
    M.Steady Same (bindArgs frame params args) (bindArgs frame' params args') w w' := by
  induction params generalizing args args' w w' with
  | nil => exact .pure hw rfl
  | cons name params ih =>
    cases h with
    | nil => exact .pure hw rfl
    | cons hr h =>
      refine (frameIn_steady hw hr hf).bind fun q q' v v' hn hv hq => ?_
      refine (bind_steady hv hf (ho.binds name) (.value hq)).bind fun _ _ u u' hm hu _ => ih hu ?_
      exact h.imp fun _ _ hr => hr.mono (Nat.le_trans hn hm)

theorem bindPlain_steady (hw : M.Worlds w w') (ho : Opened M frame frame') (params : List String)
    (h : Forall₂ (M.Twins w.size) args args')
    (hplain : ∀ q ∈ args, (w.cell q).payload.isCallable = false) :
    M.Steady Same (bindArgs frame params args) (bindArgs frame' params args') w w' := by
  induction params generalizing args args' w w' with
  | nil => exact .pure hw rfl
  | cons name params ih =>
    cases h with
    | nil => exact .pure hw rfl
    | @cons r r' args args' hr h =>
      refine (framePlain_steady hw hr (hplain r mem_cons_self) frame frame').bindOf fun q q' v v' hx hn hv hq => ?_
      cases hx
      refine (bindHead_steady hv ho.head (ho.binds name) (.value hq)).bindOf fun _ _ u u' hb hm hu _ => ih hu ?_ ?_
      · exact h.imp fun _ _ hr => hr.mono (Nat.le_trans hn hm)
      · intro q hq
        have hstep : bindArgs frame [name] [r] w = .ok () u := (bind_ok hb).trans rfl
        rw [(bindArgs_entered rfl hstep).payload q]
        exact hplain q (mem_cons_of_mem _ hq)

theorem enter_steady (hw : M.Worlds w w') (hf : Option.Rel M.Frames callee.frame callee'.frame) (name : String) :
    M.Steady (fun _ f f' => M.Frames f f' ∧ Opened M f f') (enter callee name) (enter callee' name) w w' := by
  unfold enter
  generalize callee.frame = o, callee'.frame = o' at hf ⊢
  cases hf with
  | none => exact .fault hw _
  | some hf =>
    refine (newScope_steady hw).bind fun n n' v v' _ hv hn => .pure hv ⟨hn.frames hf ?_, .some hn.pairs, hn.binds rfl⟩
    exact congrArg (name :: ·) hf.names

/-- A call is refused on both sides or entered on both. -/
theorem enterWith_meets (hw : M.Worlds w w') (hr : M.Twins w.size r r')
    (hf : Option.Rel M.Frames callee.frame callee'.frame) (b : Option Builtin) (name : String) (params : List String)
    (h : Forall₂ (M.Twins w.size) args args') {k : Frame → Eval α} {k' : Frame → Eval β}
    (hk : ∀ f f' v v', w.size ≤ v.size → M.Worlds v v' → M.Frames f f' → params.length = args.length →
      M.Meets M.Calm R (k f) (k' f') v v') :
    M.Meets M.Calm R (enterWith r callee b name params args >>= k) (enterWith r' callee' b name params args' >>= k')
      w w' := by
  unfold enterWith
  simp only [bind_assoc, pure_bind]
  refine (enter_steady hw hf name).bind fun f f' v v' hn hv hf => ?_
  refine (checkArgs_steady hv (hr.mono hn) callee callee' params h.length_eq).bind fun _ _ u u' hm hu hl => ?_
  have hargs := h.imp fun _ _ hr => hr.mono (Nat.le_trans hn hm)
  refine (bindArgs_steady hu hf.2 hf.1 params hargs).bind fun _ _ t t' hi ht _ => ?_
  refine (record_steady ht (by rfl)).bind fun _ _ s s' hj hs _ => hk f f' s s' ?_ hs hf.1 hl
  exact Nat.le_trans hn (Nat.le_trans hm (Nat.le_trans hi hj))

/-- The function `append` may be entered in another frame: then none of its arguments can be called. -/
theorem enterAppend_meets (hM : M.apart.isSome = true) (hw : M.Worlds w w') (hr : M.Twins w.size r r')
    (hf : callee.frame.isSome = true → callee'.frame.isSome = true) (name : String)
    (params : List String) (h : Forall₂ (M.Twins w.size) args args') {k : Frame → Eval α}
    {k' : Frame → Eval β} [∀ f, Growing (k f)]
    (hk : ∀ f f' v v', w.size ≤ v.size → M.Worlds v v' → params.length = args.length →
      M.Meets M.Calm R (k f) (k' f') v v') : M.Meets M.Calm R (enterWith r callee (some .append) name params args >>= k)
      (enterWith r' callee' (some .append) name params args' >>= k') w w' := by
  unfold enterWith
  unfold enter
  generalize callee.frame = o, callee'.frame = o' at hf ⊢
  cases o with
  | none => exact fun _ _ => .lost ⟨hM, rfl⟩
  | some outer =>
    cases o' with
    | none => cases hf rfl
    | some outer' =>
      simp only [bind_assoc, pure_bind]
      refine (newScope_steady hw).bind fun i i' v v' hn hv hi => ?_
      refine (checkArgs_steady hv (hr.mono hn) callee callee' params h.length_eq).bind fun _ _ u u' hm hu hl => ?_
      have ho : Opened M ⟨⟨name, callee.start⟩ :: outer.levels, i :: outer.scopes⟩
          ⟨⟨name, callee'.start⟩ :: outer'.levels, i' :: outer'.scopes⟩ := ⟨.some hi.pairs, hi.binds rfl⟩
      have hargs := h.imp fun _ _ hr => hr.mono (Nat.le_trans hn hm)
      by_cases hplain : ∀ q ∈ args, (u.cell q).payload.isCallable = false
      · refine (bindPlain_steady hu ho params hargs hplain).bind fun _ _ t t' hi ht _ => ?_
        refine (record_steady ht (by rfl)).bind fun _ _ s s' hj hs _ => hk _ _ s s' ?_ hs hl
        exact Nat.le_trans hn (Nat.le_trans hm (Nat.le_trans hi hj))
      · -- a function among the arguments spoils the call
        push Not at hplain
        obtain ⟨q, hq, hcallable⟩ := hplain
        obtain ⟨t, ht⟩ := bindArgs_ok ⟨⟨name, callee.start⟩ :: outer.levels, i :: outer.scopes⟩ params args u
        have hentered := bindArgs_entered hl ht
        intro hends hcalm
        rw [bind_ok ht] at hends hcalm
        have hspoils : M.Spoils t.store (.called (some .append)
            ⟨⟨name, callee.start⟩ :: outer.levels, i :: outer.scopes⟩ args) :=
          ⟨hM, q, hq, by rw [hentered.payload]; simpa using hcallable⟩
        exact absurd hcalm (not_calm_of_spoils (hentered.log ▸ hu.logged) hspoils hends)

theorem runBody_meets (h : EvaluatorMeets M ev ev') [Moving ev] {body body' : Node}
    (hb : body.Alike AnyPlace body') (hf : M.Frames frame frame') (hw : M.Worlds w w') :
    M.Meets M.Calm M.Twins (runBody ev body frame) (runBody ev' body' frame') w w' := by
  refine (h hb hf hw).tryCatch (fun s => ?_) rfl (fun _ => rfl) fun s s' v v' _ hv hs => ?_
  · split <;> infer_instance
  · cases hs with
    | give hr => exact .pure hv hr
    | error ht hd => exact .throw hv (.error ht hd)
    | _ => exact .throw hv (by constructor)

theorem builtin_meets (h : EvaluatorMeets M ev ev') [Moving ev] (hw : M.Worlds w w') {c c' : Call} {b : Builtin}
    (hl : b.params.length = args.length) (hargs : Forall₂ (M.Twins w.size) args args') :
    M.Meets M.Calm M.Twins (builtin ev c b args) (builtin ev' c' b args') w w' := by
  by_cases hb : b = .run
  · subst hb
    obtain ⟨q, rfl⟩ := length_eq_one_iff.1 hl.symm
    cases hargs with
    | cons hr hrest =>
      cases hrest
      exact callRun_meets h hw hr c c'
  · exact (builtin_steady hw ev ev' hb hl hargs).meets

theorem call_meets (h : EvaluatorMeets M ev ev') [Moving ev] (hw : M.Worlds w w') (hr : M.Twins w.size r r')
    (hargs : Forall₂ (M.Twins w.size) args args') :
    M.Meets M.Calm M.Twins (call ev r args) (call ev' r' args') w w' := by
  refine .cell hw hr fun callee callee' hc => ?_
  obtain ⟨hp, hf⟩ := hc
  generalize callee.payload = p, callee'.payload = p' at hp hf ⊢
  have mono {n m : Nat} (hn : n ≤ m) {as as' : List Ref} (h : Forall₂ (M.Twins n) as as') :
      Forall₂ (M.Twins m) as as' := h.imp fun _ _ hr => hr.mono hn
  cases hp with
  | @function name params body body' hb =>
    exact enterWith_meets hw hr (hf rfl) none name params hargs fun f f' v v' _ hv hf _ => runBody_meets h hb hf hv
  | builtin b =>
    have hframe := hf rfl
    split at hframe
    · next hexempt =>
      obtain rfl : b = .append := by
        unfold exempts at hexempt
        split at hexempt
        · next heq => cases heq; rfl
        · cases hexempt
      exact enterAppend_meets hexempt hw hr hframe _ _ hargs fun f f' v v' hn hv hl =>
        builtin_meets h hv hl (mono hn hargs)
    · exact enterWith_meets hw hr hframe (some b) b.name b.params hargs fun f f' v v' hn hv _ hl =>
        builtin_meets h hv hl (mono hn hargs)
  | _ => exact .error hw _

end Matching

end Utterance

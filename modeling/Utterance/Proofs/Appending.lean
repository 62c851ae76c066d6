import Utterance.Proofs.MatchingAside

/-!
# Putting values into a list of its own

The second of two matched worlds has a list of its own, to which nothing in the first world refers, and which holds
what stands for some values of the first (`Matching.Holds`). A call of `append` with that list and a value that cannot
be called is something that the second world does by itself, in two steps: it looks up the function and the list
(`Matching.Running.beginAppend`), both worlds evaluate the value, and the second one enters the call
(`Matching.Running.endAppend`). From then on the value is seen in the frame of the call, which does not matter for
what cannot be called.
-/

namespace Utterance

open Eval World List

variable {es : Array Ref}

namespace World

variable {w : World} {q : Ref}

def see (w : World) (r : Ref) (span : Span) (frame : Frame) : World :=
  (w.modifyCell r fun c => { c with start := some span.start, stop := some span.stop }).modifyCell r fun c =>
    { c with frame := some frame }

section

variable (w) (r : Ref) (span : Span) (frame : Frame)

@[simp] theorem size_see : (w.see r span frame).size = w.size := by
  simp [see, modifyCell, size]

theorem cell_see (q : Ref) : (w.see r span frame).cell q =
    if q = r ∧ r < w.size then ⟨(w.cell q).payload, some span.start, some span.stop, some frame⟩
    else w.cell q := by
  unfold see
  rw [cell_modifyCell, cell_modifyCell]
  have hsize : (w.modifyCell r fun c => { c with start := some span.start, stop := some span.stop }).size =
      w.size := by simp [modifyCell, size]
  rw [hsize]
  split
  · rfl
  · rfl

theorem payload_see (q : Ref) : ((w.see r span frame).cell q).payload = (w.cell q).payload := by
  rw [cell_see]
  split <;> rfl

end

/-- Another value with the contents of a value, seen at a place. -/
def copied (w : World) (r : Ref) (span : Span) : World :=
  (w.alloc (w.cell r)).modifyCell w.size fun c => { c with start := some span.start, stop := some span.stop }

@[simp] theorem size_copied (w : World) (r : Ref) (span : Span) : (w.copied r span).size = w.size + 1 := by
  simp [copied, modifyCell, alloc, size]

theorem cell_copied (w : World) (r : Ref) (span : Span) (q : Ref) : (w.copied r span).cell q =
    if q = w.size then { w.cell r with start := some span.start, stop := some span.stop }
    else w.cell q := by
  unfold copied
  rw [cell_modifyCell, cell_alloc]
  by_cases hq : q = w.size
  · rw [if_pos ⟨hq, by simp [alloc, size]⟩, if_pos hq, if_pos hq]
  · rw [if_neg fun h => hq h.1, if_neg hq, if_neg hq]

theorem lt_of_list (h : (w.cell q).payload = .list es) : q < w.size := by
  refine Nat.lt_of_not_le fun hq => ?_
  rw [World.cell, Store.cell, Array.getD_eq_getD_getElem?, Array.getElem?_eq_none hq] at h
  cases h

end World

variable {w : World} {frame : Frame} {t : Token} {q : Ref}

theorem evaluate_named (hl : w.store.lookup frame t.text = some (.value q))
    (hp : (∃ es, (w.cell q).payload = .list es) ∨ ∃ b, (w.cell q).payload = .builtin b) (span : Span) :
    evaluate (.named span t) frame w = .ok q (w.see q span frame) := by
  have hfound : lookup frame t.text w = .ok (some (.value q)) w := congrArg (EStateM.Result.ok · w) hl
  have hpayload : payload q w = .ok (w.cell q).payload w := rfl
  have hstep : step evaluate (.named span t) frame w = .ok q (w.see q span frame) := by
    refine (bind_ok hfound).trans ((bind_ok hpayload).trans ?_)
    rcases hp with ⟨es, hp⟩ | ⟨b, hp⟩
    · rw [hp]
      rfl
    · rw [hp]
      rfl
  exact evaluate_ok hstep

theorem copy_place {α : Type} (q : Ref) (span : Span) (k : Ref → Eval α) :
    (do let f ← copy q; let f ← place f span; k f) w = k w.size (w.copied q span) := rfl

def Frame.ofAppend (callee : Cell) (outer : Frame) (scope : Nat) : Frame :=
  ⟨⟨"append", callee.start⟩ :: outer.levels, scope :: outer.scopes⟩

namespace World

/-- The world after `append` was entered in a new scope. -/
def entered (w : World) (frame : Frame) (r q : Ref) : World :=
  ((((w.newScope.modifyCell r fun c => { c with frame := some frame }).modifyScope w.scopeCount
    (·.set "list" (some (.value r)))).modifyCell q fun c => { c with frame := some frame }).modifyScope
    w.scopeCount (·.set "value" (some (.value q)))).record (.called (some .append) frame [r, q])

theorem payload_entered (w : World) (frame : Frame) (r q p : Ref) :
    ((w.entered frame r q).cell p).payload = (w.cell p).payload := by
  have hframe (v : World) (r : Ref) : ((v.modifyCell r fun c => { c with frame := some frame }).cell p).payload =
      (v.cell p).payload := by
    rw [cell_modifyCell]
    split <;> rfl
  exact (hframe _ q).trans (hframe _ r)

def push (w : World) (r q : Ref) : World :=
  w.modifyCell r fun cell =>
    match cell.payload with
    | .list es => { cell with payload := .list (es.push q) }
    | _ => cell

theorem payload_push {r : Ref} (h : (w.cell r).payload = .list es) (q : Ref) :
    ((w.push r q).cell r).payload = .list (es.push q) := by
  unfold push
  rw [cell_modifyCell, if_pos ⟨rfl, lt_of_list h⟩, h]

end World

theorem call_append {f r : Ref} {callee : Cell} {outer : Frame} (hf : w.cell f = callee)
    (hp : callee.payload = .builtin .append) (ho : callee.frame = some outer)
    (hl : (w.cell r).payload = .list es) : call evaluate f [r, q] w =
      .ok Store.null ((w.entered (.ofAppend callee outer w.scopeCount) r q).push r q) := by
  have hcell : cell f w = .ok callee w := by rw [← hf]; rfl
  have henter : enter callee "append" w = .ok (.ofAppend callee outer w.scopeCount) w.newScope := by
    unfold enter
    rw [ho]
    rfl
  have hwith : enterWith f callee (some .append) "append" ["list", "value"] [r, q] w =
      .ok (.ofAppend callee outer w.scopeCount) (w.entered (.ofAppend callee outer w.scopeCount) r q) := by
    unfold enterWith
    rw [bind_ok henter]
    rfl
  have hlist (c : Call) : c.list r "First argument must be list"
      (w.entered (.ofAppend callee outer w.scopeCount) r q) =
        .ok es (w.entered (.ofAppend callee outer w.scopeCount) r q) := by
    have hpayload := (w.payload_entered (.ofAppend callee outer w.scopeCount) r q r).trans hl
    show (match ((w.entered (.ofAppend callee outer w.scopeCount) r q).cell r).payload with
      | .list es => pure es
      | _ => c.refuse "First argument must be list") _ = _
    rw [hpayload]
    rfl
  unfold call
  rw [bind_ok hcell, hp]
  exact (bind_ok hwith).trans (bind_ok (hlist _))

namespace Matching

variable {M N : Matching} {a : Apart} {w' v' : World} {n m : Nat} {items : List Ref}

/-- The list of its own holds what stands for some values. -/
def Holds (M : Matching) (a : Apart) (n : Nat) (items : List Ref) : Prop :=
  ∃ c es, (a.list, c) ∈ M.kept ∧ c.payload = .list es ∧ Forall₂ (M.Twins n) items es.toList

theorem Holds.mono (h : M.Holds a n items) (hn : n ≤ m) : M.Holds a m items := by
  obtain ⟨c, es, hc, hp, hes⟩ := h
  exact ⟨c, es, hc, hp, hes.imp fun _ _ hr => hr.mono hn⟩

theorem Holds.alone (h : M.Holds a n items) (r : Ref) : ¬ M.Twins m r a.list := by
  obtain ⟨c, es, hc, -⟩ := h
  exact fun hr => M.alone _ hc r hr.2

theorem Holds.cell (h : M.Holds a n items) (hw : M.Worlds w w') :
    ∃ es, (w'.cell a.list).payload = .list es ∧ Forall₂ (M.Twins n) items es.toList := by
  obtain ⟨c, es, hc, hp, hes⟩ := h
  exact ⟨es, by rw [hw.kept _ hc]; exact hp, hes⟩

/-- After the second world went on by itself, its list may hold something else, and another value may be kept. -/
theorem Running.refill (h : M.Running a frame w w') (hh : M.Holds a n items) (ha : M.Aside w w' v')
    {more : List Ref} (hl : (v'.cell a.list).payload = .list es)
    (hes : Forall₂ (M.Twins w.size) more es.toList) (extra : List Ref)
    (hextra : ∀ e ∈ extra, e < v'.size ∧ ∀ r, ¬ M.Twins w.size r e) :
    ∃ N : Matching, M.Later w N w ∧ N.Running a frame w v' ∧ N.Holds a w.size more ∧
      ∀ e ∈ extra, (e, v'.cell e) ∈ N.kept := by
  have hall : ∀ e ∈ (a.list :: extra).map fun e => (e, v'.cell e),
      e.1 < v'.size ∧ (∀ r, ¬ M.Twins w.size r e.1) ∧ v'.cell e.1 = e.2 := by
    intro e he
    obtain ⟨r, hr, rfl⟩ := mem_map.1 he
    rcases mem_cons.1 hr with rfl | hr
    · exact ⟨lt_of_list hl, hh.alone, rfl⟩
    · exact ⟨(hextra r hr).1, (hextra r hr).2, rfl⟩
  obtain ⟨N, hlater, hkept, hN⟩ := h.aside ha hall
  refine ⟨N, hlater, hN, ⟨v'.cell a.list, es, ?_, hl, hes.imp fun _ _ hr => hlater.twins hr⟩, fun e he => ?_⟩
  · rw [hkept]
    exact mem_map.2 ⟨a.list, mem_cons_self, rfl⟩
  · rw [hkept]
    exact mem_map.2 ⟨e, mem_cons_of_mem _ he, rfl⟩

namespace Aside

variable {r q' : Ref}

variable (h : M.Aside w w' v')
include h

theorem see {q' : Ref} (hf : ∀ q, M.Twins w.size q q' →
    M.Framed (w.cell q).payload (w.cell q).frame (some frame)) (span : Span) :
    M.Aside w w' (v'.see q' span frame) := by
  have hplaced : M.Aside w w'
      (v'.modifyCell q' fun c => { c with start := some span.start, stop := some span.stop }) :=
    h.modifyCell fun q hq => ⟨(h.cells q q' hq).payload, (h.cells q q' hq).frame⟩
  exact hplaced.modifyCell fun q hq => ⟨(hplaced.cells q q' hq).payload, hf q hq⟩

theorem entered (hr : ∀ p, ¬ M.Twins w.size p r)
    (hq : ∀ p, M.Twins w.size p q' → (w.cell p).payload.isCallable = false) :
    M.Aside w w' (v'.entered frame r q') := by
  have hlist : M.Aside w w' (v'.newScope.modifyCell r fun c => { c with frame := some frame }) :=
    h.newScope.modifyCell fun p hp => absurd hp (hr p)
  have hvalue := (hlist.modifyScope h.scopeCount (·.set "list" (some (.value r)))).modifyCell
    (f := fun c => { c with frame := some frame }) fun p hp =>
      ⟨(hlist.cells p q' hp).payload, .plain (hq p hp) _ _⟩
  exact (hvalue.modifyScope h.scopeCount (·.set "value" (some (.value q')))).record rfl

theorem push (hr : ∀ p, ¬ M.Twins w.size p r) (q : Ref) : M.Aside w w' (v'.push r q) :=
  h.modifyCell fun p hp => absurd hp (hr p)

theorem new (hw : M.Worlds w w') (p : Ref) : ¬ M.Twins w.size p v'.size := fun hp =>
  Nat.not_le.2 ((hw.lt_iff hp).1 hp.1) h.size

theorem copied (hw : M.Worlds w w') (q : Ref) (span : Span) : M.Aside w w' (v'.copied q span) :=
  (h.alloc hw _).modifyCell fun p hp => absurd hp (h.new hw p)

end Aside

section

variable {append list : Token} {span : Span} {f q' : Ref} {callee : Cell}

theorem Worlds.lookup_own (h : M.Worlds w w') (ha : M.apart = some a) (hhead : frame.scopes.head? = some a.scope') :
    w'.store.lookup frame a.name = some (.value a.list) := by
  obtain ⟨outer, houter⟩ : ∃ outer, frame.scopes = a.scope' :: outer := by
    cases hs : frame.scopes with
    | nil => rw [hs] at hhead; cases hhead
    | cons s outer => rw [hs] at hhead; cases hhead; exact ⟨outer, rfl⟩
  unfold Store.lookup
  rw [houter, map_cons, Scope.lookup, h.own a ha]
  rfl

theorem Running.beginAppend (h : M.Running a frame w w') (hh : M.Holds a w.size items)
    (hhead : frame.scopes.head? = some a.scope') (happend : append.text = "append") (hlist : list.text = a.name)
    (hname : a.name ≠ "append") (hl : w.store.lookup frame "append" = some (.value q))
    (hp : (w.cell q).payload = .builtin .append) (span : Span) :
    ∃ (N : Matching) (f : Ref) (v' : World) (callee : Cell), M.Later w N w ∧ N.Running a frame w v' ∧
      N.Holds a w.size items ∧ (f, callee) ∈ N.kept ∧ callee.payload = .builtin .append ∧ callee.frame = some frame ∧
      ∀ k : Ref → Ref → Eval Ref, (do
        let f ← evaluate (.named span append) frame
        let f ← copy f
        let f ← place f span
        let r ← evaluate (.named span list) frame
        k f r) w' = k f a.list v' := by
  -- the function is the same one on both sides
  have hasks : M.Asks "append" := fun b hb => by
    obtain rfl : b = a := Option.some.inj (hb.symm.trans h.apart)
    exact hname
  have hrel := h.worlds.lookup h.frames hasks
  rw [hl] at hrel
  obtain ⟨q', hl', hq⟩ : ∃ q', w'.store.lookup frame "append" = some (.value q') ∧ M.Twins w.size q q' := by
    generalize w'.store.lookup frame "append" = b' at hrel
    cases hrel with
    | some hb =>
      cases hb with
      | value hq => exact ⟨_, rfl, hq⟩
  have hp' : (w'.cell q').payload = .builtin .append := by
    have halike := (h.worlds.cells q q' hq).payload
    rw [hp] at halike
    generalize (w'.cell q').payload = p at halike
    cases halike
    rfl
  have hqlt : q' < w'.size := (h.worlds.lt_iff hq).1 hq.1
  obtain ⟨es, hes, hitems⟩ := hh.cell h.worlds
  have hllt : a.list < w'.size := lt_of_list hes
  -- it is seen in the frame, copied and called with the list
  have hseen : M.Aside w w' (w'.see q' span frame) := by
    refine (Aside.refl h.worlds).see (fun p hpq => ?_) span
    obtain rfl : p = q := (hpq.eq_iff hq).2 rfl
    rw [hp]
    intro _
    have hexempt : M.exempts (.builtin .append) = true := by rw [exempts, h.apart]; rfl
    rw [if_pos hexempt]
    exact fun _ => rfl
  have hcopied := hseen.copied h.worlds q' span
  have hnew := hseen.new h.worlds
  rw [size_see] at hnew
  have hnamed : M.Aside w w' (((w'.see q' span frame).copied q' span).see a.list span frame) :=
    hcopied.see (fun p hpl => absurd hpl (hh.alone p)) span
  have hcell : (((w'.see q' span frame).copied q' span).see a.list span frame).cell w'.size =
      ⟨.builtin .append, some span.start, some span.stop, some frame⟩ := by
    rw [cell_see, if_neg fun heq => Nat.ne_of_gt hllt heq.1, cell_copied, size_see, if_pos rfl,
      cell_see, if_pos ⟨rfl, hqlt⟩, hp']
  have hpayload : (((w'.see q' span frame).copied q' span).cell a.list).payload = .list es := by
    rw [cell_copied, size_see, if_neg (Nat.ne_of_lt hllt), payload_see, hes]
  have hlt : w'.size < (((w'.see q' span frame).copied q' span).see a.list span frame).size := by
    rw [size_see, size_copied, size_see]
    exact Nat.lt_succ_self _
  obtain ⟨N, hlater, hN, hholds, hkept⟩ := h.refill hh hnamed ((payload_see ..).trans hpayload) hitems [w'.size]
    fun e he => by
      obtain rfl := mem_singleton.1 he
      exact ⟨hlt, hnew⟩
  refine ⟨N, w'.size, _, _, hlater, hN, hholds, hkept _ mem_cons_self, by rw [hcell], by rw [hcell], fun k => ?_⟩
  have happend' : w'.store.lookup frame append.text = some (.value q') := by rw [happend]; exact hl'
  have hlist' : ((w'.see q' span frame).copied q' span).store.lookup frame list.text = some (.value a.list) := by
    rw [hlist]
    exact h.worlds.lookup_own h.apart hhead
  rw [bind_ok (evaluate_named happend' (.inr ⟨_, hp'⟩) span), copy_place, size_see,
    bind_ok (evaluate_named hlist' (.inl ⟨_, hpayload⟩) span)]

theorem Running.endAppend (h : M.Running a frame w w') (hh : M.Holds a w.size items) (hkept : (f, callee) ∈ M.kept)
    (hp : callee.payload = .builtin .append) (hf : callee.frame = some frame) (hq : M.Twins w.size q q')
    (hplain : (w.cell q).payload.isCallable = false) (span : Span) :
    ∃ (N : Matching) (r' : Ref) (v' : World), M.Later w N w ∧ N.Running a frame w v' ∧
      N.Holds a w.size (items ++ [q]) ∧ (do
        let result ← call evaluate f [a.list, q']
        let result ← copy result
        let result ← place result span
        frameIn result frame) w' = .ok r' v' := by
  obtain ⟨es, hes, hitems⟩ := hh.cell h.worlds
  have hentered : M.Aside w w' (w'.entered (.ofAppend callee frame w'.scopeCount) a.list q') := by
    refine (Aside.refl h.worlds).entered hh.alone fun p hpq => ?_
    obtain rfl : p = q := (hpq.eq_iff hq).2 rfl
    exact hplain
  have hpushed := hentered.push hh.alone q'
  have hcallee : w'.cell f = callee := h.worlds.kept _ hkept
  have hcall := call_append (q := q') hcallee hp hf hes
  have hentry : ((w'.entered (.ofAppend callee frame w'.scopeCount) a.list q').cell a.list).payload =
      .list es := (payload_entered ..).trans hes
  have hpayload := payload_push hentry q'
  generalize (w'.entered (.ofAppend callee frame w'.scopeCount) a.list q').push a.list q' = v' at *
  -- the result of the call is copied
  have hcopied := hpushed.copied h.worlds Store.null span
  have hdone : M.Aside w w' ((v'.copied Store.null span).modifyCell v'.size fun c => { c with frame := some frame }) :=
    hcopied.modifyCell fun p hpn => absurd hpn (hpushed.new h.worlds p)
  have hlt : a.list < v'.size := lt_of_list hpayload
  have hlast : (((v'.copied Store.null span).modifyCell v'.size fun c =>
      { c with frame := some frame }).cell a.list).payload = .list (es.push q') := by
    rw [cell_modifyCell, if_neg fun heq => Nat.ne_of_lt hlt heq.1, cell_copied, if_neg (Nat.ne_of_lt hlt),
      hpayload]
  have hmore : Forall₂ (M.Twins w.size) (items ++ [q]) (es.push q').toList := by
    rw [Array.toList_push]
    exact rel_append hitems (.cons hq .nil)
  obtain ⟨N, hlater, hN, hholds, -⟩ := h.refill hh hdone hlast hmore [] fun _ he => nomatch he
  exact ⟨N, _, _, hlater, hN, hholds, by rw [bind_ok hcall, copy_place]; rfl⟩

end

end Matching

end Utterance

import Utterance.Proofs.Appending

/-!
# The loops of a comprehension

A comprehension stands for loops through what its clauses run through, each in the body of the one before and each
condition in a block of its own, around a call that puts the value of its expression into a new list
(`Comprehension.loops`).

What the loops rely on is checked on the way while the comprehension runs (`Comprehension.watched`). Then the two
worlds are matched, with the list of the loops apart, and each round of a loop puts into the list what the same round
of the comprehension finds: at the innermost place by a call (`leaf_along`), under conditions (`guarded_along`), in a
loop (`each_along`), and for all clauses together by induction on them (`nested_along`).
-/

namespace Utterance

open Eval List

variable {ev : Evaluator}

namespace Comprehension

/-- A statement under conditions, each in the block of the one before. -/
def guarded (span : Span) (statement : Node) : List Node → Node
  | [] => statement
  | c :: conditions => .conditional span [(c, .list span [guarded span statement conditions], true)] none

/-- The loops through what the clauses run through, the first clause outermost, around a call that puts the value of
an expression into a list. -/
def nested (span : Span) (append list : Token) (expression : Node) : List Clause → Node
  | [] => .apply span (.named span append) [.named span list, expression]
  | (name, iterable, conditions) :: clauses =>
    .each span name iterable (.list span [guarded span (nested span append list expression clauses) conditions])

/-- Runs the loops in a new scope, for a new list, which is the result. -/
def loops (ev : Evaluator) (span : Span) (append list : Token) (expression : Node)
    (clauses : List Clause) (frame : Frame) : Eval Ref := do
  let scope ← newScope
  let inner : Frame := { frame with scopes := scope :: frame.scopes }
  let r ← ev (.assign span list (.list span [])) inner
  let _ ← ev (nested span append list expression clauses) inner
  return r

/-- Evaluates a node to a given depth, as long as all nodes on the way have a property in their frames. -/
def evaluateWithin (p : Node → Frame → Bool) : Nat → Evaluator
  | 0 => fun _ _ => throw .exhausted
  | depth + 1 => fun node frame =>
    if p node frame then step (evaluateWithin p depth) node frame else throw .exhausted

/-- A node neither uses a name nor brings unknown names into a scope. -/
def avoids (name : String) (scope : Nat) (node : Node) (frame : Frame) : Bool :=
  !node.ownNames.contains name && !(node.isBring && frame.scopes.head? == some scope)

def insist (p : World → Bool) : Eval Unit := do
  if p (← get) then return () else throw .exhausted

def meansAppend (frame : Frame) (w : World) : Bool :=
  match w.store.lookup frame "append" with
  | some (.value r) => match (w.cell r).payload with
    | .builtin .append => true
    | _ => false
  | _ => false

/-- The values of a comprehension, as long as it runs through lists and tuples only, none of the values can be called,
and the name `append` means the function where a value is found. -/
def watched (ev : Evaluator) (frame : Frame) (expression : Node) : List Clause → Eval (Array Ref)
  | [] => do
    insist (meansAppend frame)
    let r ← ev expression frame
    insist fun w => !(w.cell r).payload.isCallable
    return #[r]
  | (name, iterable, conditions) :: clauses => do
    let items ← ev iterable frame
    match ← payload items with
    | .list _ | .tuple _ => collect ev frame name.text conditions items (watched ev frame expression clauses)
    | _ => throw .exhausted

/-- A watched run of a comprehension in a new scope, as long as nobody uses a name of its own there. -/
def observed (name : String) (depth : Nat) (expression : Node) (clauses : List Clause)
    (frame : Frame) : Eval (Array Ref) := do
  let scope ← newScope
  watched (evaluateWithin (avoids name scope) depth) { frame with scopes := scope :: frame.scopes } expression clauses

theorem insist_bind {α : Type} (p : World → Bool) (x : Eval α) (w : World) :
    (do insist p; x) w = if p w then x w else (.error .exhausted w : Outcome α) := by
  show ((if p w then pure () else throw Signal.exhausted : Eval Unit) >>= fun _ => x) w = _
  split <;> rfl

theorem insist_approximates {α : Type} (p : World → Bool) {x y : Eval α} (h : Approximates x y) :
    Approximates (do insist p; x) y := by
  intro w
  rw [insist_bind]
  split
  · exact h w
  · exact .inl ⟨w, rfl⟩

theorem watched_approximates {ev' : Evaluator} (h : EvaluatorApproximates ev ev') (frame : Frame) (expression : Node)
    (clauses : List Clause) :
    Approximates (watched ev frame expression clauses) (comprehension ev' frame expression clauses) := by
  induction clauses with
  | nil => exact insist_approximates _ ((h expression frame).bind fun r => insist_approximates _ (.refl _))
  | cons c clauses ih =>
    refine (h c.2.1 frame).bind fun items => (Approximates.refl _).bind fun p => ?_
    cases p with
    | list | tuple => exact collect_approximates h frame _ _ items ih
    | _ => exact fun w => .inl ⟨w, rfl⟩

theorem evaluateWithin_approximates (p : Node → Frame → Bool) (depth : Nat) :
    EvaluatorApproximates (evaluateWithin p depth) evaluate := by
  have key : EvaluatorApproximates (evaluateWithin p depth) (evaluateTo depth) := by
    induction depth with
    | zero => exact fun _ _ w => .inl ⟨w, rfl⟩
    | succ depth ih =>
      intro node frame
      unfold evaluateWithin
      split
      · exact step_approximates ih node frame
      · exact fun w => .inl ⟨w, rfl⟩
  intro node frame w
  rcases key node frame w with hend | heq
  · exact .inl hend
  · rw [heq]
    exact evaluateTo_approximates depth node frame w

theorem evaluateWithin_moves (p : Node → Frame → Bool) (depth : Nat) : EvaluatorMoves (evaluateWithin p depth) := by
  induction depth with
  | zero => exact fun _ _ => .throw _
  | succ depth ih =>
    intro node frame
    unfold evaluateWithin
    split
    · exact step_moves ih node frame
    · exact .throw _

variable {rest : Eval (Array Ref)}

section

variable (h : EvaluatorMoves ev) (frame : Frame) (name : String) (conditions : List Node) (items : Ref)
  (hrest : Moves frame rest)
include h hrest

theorem collectRound_moves
    (state : Nat × Array Ref) : Moves frame (collectRound ev frame name conditions items rest state) := by
  have hall : Moves frame (allTrue ev frame conditions) :=
    (assembled_allTrue (S := False) (b := false) False.elim).moves h
  refine Moves.bind (Plain.moves (Primitive.itemAt items _).plain) fun item => ?_
  cases item with
  | none => exact .pure _
  | some b => exact (bind_moves name b).bind fun _ => (hall.bind fun _ => .ite hrest (.pure _)).bind fun _ => .pure _

theorem collect_moves : Moves frame (collect ev frame name conditions items rest) :=
  .iterate (collectRound_moves h frame name conditions items hrest) _

end

theorem watched_moves (h : EvaluatorMoves ev) (frame : Frame) (expression : Node)
    (clauses : List Clause) : Moves frame (watched ev frame expression clauses) := by
  have hinsist (p : World → Bool) : Moves frame (insist p) := by
    intro w _
    show Reaches _ w (after ((if p w then pure () else throw Signal.exhausted : Eval Unit) w))
    split <;> exact .refl _ _
  induction clauses with
  | nil => exact (hinsist _).bind fun _ => (h expression frame).bind fun _ => (hinsist _).bind fun _ => .pure _
  | cons c clauses ih =>
    refine (h c.2.1 frame).bind fun items => (payload_moves items).bind fun p => ?_
    cases p with
    | list | tuple => exact collect_moves h frame _ _ items ih
    | _ => exact .throw _

theorem evaluateWithin_meets {M : Matching} {a : Apart} (hM : M.apart = some a) (depth : Nat) :
    M.EvaluatorMeets (evaluateWithin (avoids a.name a.scope) depth) evaluate := by
  induction depth with
  | zero => exact fun _ _ _ he => absurd rfl (he _)
  | succ depth ih =>
    intro node node' frame frame' w w' hn hf hw he hc
    have moving : Matching.Moving (evaluateWithin (avoids a.name a.scope) depth) := ⟨evaluateWithin_moves _ depth⟩
    by_cases hp : avoids a.name a.scope node frame = true
    · have hstep : evaluateWithin (avoids a.name a.scope) (depth + 1) node frame =
          step (evaluateWithin (avoids a.name a.scope) depth) node frame := if_pos hp
      rw [hstep] at he hc ⊢
      have hpermits : M.Permits node frame := by
        unfold avoids at hp
        rw [Bool.and_eq_true, Bool.not_eq_true', Bool.not_eq_true', Bool.and_eq_false_iff] at hp
        refine ⟨fun x hx b hb heq => ?_, fun hbring b hb => ?_⟩
        · obtain rfl : b = a := Option.some.inj (hb.symm.trans hM)
          rw [heq, contains_eq_mem, decide_eq_false_iff_not] at hp
          exact hp.1 hx
        · obtain rfl : b = a := Option.some.inj (hb.symm.trans hM)
          rcases hp.2 with hno | hno
          · rw [hbring] at hno
            cases hno
          · simpa using hno
      have ho := Matching.step_meets ih hn hpermits hf hw he hc
      rcases ho.ends_or with hends | hlost
      · rw [evaluate_eq hends]
        exact ho
      · exact hlost _
    · have hstop : evaluateWithin (avoids a.name a.scope) (depth + 1) node frame = throw .exhausted := if_neg hp
      rw [hstop] at he
      exact absurd rfl (he w)

open Matching

instance (p : World → Bool) : Growing (insist p) where
  lasts w _ := by
    show Lasts w (after ((if p w then pure () else throw Signal.exhausted : Eval Unit) w))
    split <;> exact .refl w

instance {C : World → Prop} (condition : Eval Bool) (rest : Eval (Array Ref)) [Keeps C condition] [Keeps C rest] :
    Keeps C (foundIf condition rest) := by
  unfold foundIf
  infer_instance

/-- What the loops need: they run in the scope of a list, whose name the evaluator of the comprehension does not
meet. -/
structure Setting (ev : Evaluator) (a : Apart) (frame : Frame) (append list : Token) : Prop where
  meets : ∀ {M : Matching}, M.apart = some a → EvaluatorMeets M ev evaluate
  head : frame.scopes.head? = some a.scope'
  append : append.text = "append"
  list : list.text = a.name
  name : a.name ≠ "append"

theorem foundIf_allTrue (ev : Evaluator) (frame : Frame) (c : Node) (conditions : List Node)
    (rest : Eval (Array Ref)) :
    foundIf (allTrue ev frame (c :: conditions)) rest = (do
      let r ← ev c frame
      if ← isTrue r then foundIf (allTrue ev frame conditions) rest else return #[]) := by
  unfold foundIf
  rw [allTrue]
  simp only [bind_assoc]
  congr 1
  funext r
  congr 1
  funext b
  cases b with
  | true => rfl
  | false => rfl

variable [hmoving : Moving ev] {a : Apart} {frame : Frame} {append list : Token} {M : Matching} {w w' : World}
  {base : List Ref} {x : Eval (Array Ref)} {node : Node} {α : Type}

/-- The list of its own holds what was found before and what was found now. -/
abbrev Filling (a : Apart) (base : List Ref) (M : Matching) (n : Nat) (found : Array Ref) (_ : α) : Prop :=
  M.Holds a n (base ++ found.toList)

theorem meansAppend_eq_true (h : meansAppend frame w = true) :
    ∃ q, w.store.lookup frame "append" = some (.value q) ∧ (w.cell q).payload = .builtin .append := by
  unfold meansAppend at h
  split at h
  · next q hq =>
    split at h
    · next hp => exact ⟨q, hq, hp⟩
    · cases h
  · cases h

theorem leaf_along (hs : Setting ev a frame append list) (h : M.Running a frame w w') (hh : M.Holds a w.size base)
    (expression : Node) (span : Span) :
    Along a frame M (Filling a base) (watched ev frame expression [])
      (evaluate (nested span append list expression []) frame) w w' := by
  refine .evaluate ?_
  have happlication : step evaluate (nested span append list expression []) frame = (do
      let f ← evaluate (.named span append) frame
      let f ← copy f
      let f ← place f span
      let r ← evaluate (.named span list) frame
      let q ← evaluate expression frame
      let result ← call evaluate f [r, q]
      let result ← copy result
      let result ← place result span
      frameIn result frame) := by
    show application evaluate span (.named span append) [.named span list, expression] frame = _
    unfold application
    simp only [mapM_cons, mapM_nil, bind_assoc, pure_bind]
  rw [happlication]
  intro he hc
  unfold watched at he hc ⊢
  rw [insist_bind] at he hc ⊢
  by_cases hm : meansAppend frame w = true
  · rw [if_pos hm] at he hc ⊢
    obtain ⟨q, hl, hp⟩ := meansAppend_eq_true hm
    -- The loops look up the function and the list by themselves, before both sides evaluate the expression.
    obtain ⟨N, f, v', callee, hlater, hN, hholds, hkept, hp, hf, hk⟩ :=
      h.beginAppend hh hs.head hs.append hs.list hs.name hl hp span
    rw [hk]
    revert he hc
    have hsame := hs.meets hN.apart (.refl expression) hN.frames hN.worlds
    refine Along.later (Along.meets hN (hmoving.moves expression frame) hsame fun q q' u u' hlasts hu hq => ?_) hlater
    intro he hc
    rw [insist_bind] at he hc ⊢
    split at he
    · next hplain =>
      rw [if_pos hplain]
      -- The value cannot be called, so that the call of `append` is again something the loops do by themselves.
      obtain ⟨K, r', u'', hlater, hK, hholds, hcall⟩ :=
        hu.endAppend (hholds.mono hlasts.cells) hkept hp hf hq (by simpa using hplain) span
      rw [hcall]
      exact .ok hlater hK hholds
    · exact absurd rfl (he.ends u)
  · rw [if_neg hm] at he
    exact absurd rfl (he.ends w)

theorem Filling.discard {y : Eval α} (h : Along a frame M (Filling a base) x y w w') (r : Ref) :
    Along a frame M (Filling a base) x (do let _ ← y; pure r) w w' := by
  rw [← bind_pure x]
  exact h.bind fun N found _ v v' _ hv hfound => .pure hv hfound

theorem block_along (h : Along a frame M (Filling a base) x (evaluate node frame) w w') (span : Span) :
    Along a frame M (Filling a base) x (evaluate (.list span [node]) frame) w w' := by
  refine .evaluate ?_
  have hblock : step evaluate (.list span [node]) frame = (do
      let r ← evaluate node frame
      make (.list #[r]) span frame) := by
    show (do make (.list (← [node].mapM (evaluate · frame)).toArray) span frame) = _
    simp only [mapM_cons, mapM_nil, bind_assoc, pure_bind]
  rw [hblock, ← bind_pure x]
  refine h.bind fun N found r v v' hlater hv hholds _ _ => ?_
  obtain ⟨es, hes, hitems⟩ := hholds.cell hv.worlds
  have hlt := World.lt_of_list hes
  obtain ⟨K, hlater, hK, hholds, -⟩ := hv.refill hholds ((Aside.refl hv.worlds).alloc hv.worlds
    ⟨.list #[r], some span.start, some span.stop, some frame⟩)
    (by rw [World.cell_alloc, if_neg (Nat.ne_of_lt hlt), hes]) hitems [] fun _ he => nomatch he
  exact .ok hlater hK hholds

theorem guarded_along (hs : Setting ev a frame append list) [Growing rest]
    (hrest : ∀ {N : Matching} {v v' : World}, N.Running a frame v v' → N.Holds a v.size base →
      Along a frame N (Filling a base) rest (evaluate node frame) v v')
    (conditions : List Node) (span : Span) (h : M.Running a frame w w') (hh : M.Holds a w.size base) :
    Along a frame M (Filling a base) (foundIf (allTrue ev frame conditions) rest)
      (evaluate (guarded span node conditions) frame) w w' := by
  induction conditions generalizing M w w' with
  | nil => exact hrest h hh
  | cons c conditions ih =>
    rw [foundIf_allTrue]
    refine .evaluate ?_
    have hsame := hs.meets h.apart (.refl c) h.frames h.worlds
    refine Along.meets h (hmoving.moves c frame) hsame fun q q' v v' hlasts hv hq => ?_
    have htrue : M.Meets M.Calm Same (isTrue q) (isTrue q') v v' := by
      rw [← bind_pure (isTrue q), ← bind_pure (isTrue q')]
      exact .isTrue hv.worlds hq fun b => .pure hv.worlds rfl
    refine Along.meets hv (Plain.moves (Primitive.isTrue q).plain) htrue fun b b' u u' hlasts' hu hb => ?_
    obtain rfl : b = b' := hb
    have hholds := hh.mono (Nat.le_trans hlasts.cells hlasts'.cells)
    cases b with
    | false => exact .pure hu (by simpa [Filling] using hholds)
    | true => exact Filling.discard (block_along (ih hu hholds) span) Store.null

theorem loopBody_along (h : Along a frame M (Filling a base) x (evaluate node frame) w w') :
    Along a frame M (fun N n found again => Filling a base N n found again ∧ again = true) x
      (loopBody evaluate frame node) w w' := by
  intro he hc
  have ho := h he hc
  generalize x w = p at ho ⊢
  generalize hy : evaluate node frame w' = q at ho
  cases ho with
  | @ok _ _ _ _ v' hlater hv hholds =>
    have hloop : loopBody evaluate frame node w' = .ok true v' := tryCatch_ok (bind_ok hy)
    rw [hloop]
    exact .ok hlater hv ⟨hholds, rfl⟩
  | @error _ s s' _ v' hlater hv hs hss =>
    -- a signal that stops is none of those that a loop catches
    have hloop : loopBody evaluate frame node w' = .error s' v' := by
      cases hss <;> first | exact hs.elim | exact tryCatch_error (bind_error hy)
    rw [hloop]
    exact .error hlater hv hs hss

theorem item_meets {r r' : Ref} (hw : M.Worlds w w') (hr : M.Twins w.size r r')
    (ht : (w.cell r).payload.typeName = "List" ∨ (w.cell r).payload.typeName = "Tuple") (i : Nat) :
    M.Meets M.Calm (fun n => Option.Rel fun b q' => ∃ q, b = .value q ∧ M.Twins n q q') (itemAt? r i) (elementAt? r' i)
      w w' := by
  have value {o o' : Option Ref} (h : Option.Rel (M.Twins w.size) o o') :
      Option.Rel (fun b q' => ∃ q, b = .value q ∧ M.Twins w.size q q') (o.map Binding.value) o' := by
    cases h with
    | none => exact .none
    | some h => exact .some ⟨_, rfl, h⟩
  have hp := (hw.cells r r' hr).payload
  have hpayload : payload r w = .ok (w.cell r).payload w := rfl
  have hpayload' : payload r' w' = .ok (w'.cell r').payload w' := rfl
  intro _ _
  unfold itemAt? elementAt?
  rw [bind_ok hpayload, bind_ok hpayload']
  generalize (w.cell r).payload = p, (w'.cell r').payload = p' at hp ht ⊢
  cases hp with
  | list hes => exact .ok (Nat.le_refl _) hw (value (arrayGetElem?_alike hes i))
  | tuple hes => exact .ok (Nat.le_refl _) hw (value (getElem?_alike hes i))
  | _ => simp [Payload.typeName] at ht

/-- A loop puts into the list what a comprehension finds, round by round. -/
theorem each_along (hs : Setting ev a frame append list) (hmoves : Moves frame rest) {conditions : List Node}
    (hbody : ∀ {N : Matching} {v v' : World} {base : List Ref}, N.Running a frame v v' → N.Holds a v.size base →
      Along a frame N (Filling a base) (foundIf (allTrue ev frame conditions) rest) (evaluate node frame) v v')
    {name : String} (hname : name ≠ a.name) {items items' : Ref} (hitems : M.Twins w.size items items')
    (htype : (w.cell items).payload.typeName = "List" ∨ (w.cell items).payload.typeName = "Tuple")
    (h : M.Running a frame w w') (hh : M.Holds a w.size base) :
    Along a frame M (Filling a base) (collect ev frame name conditions items rest)
      (each evaluate frame name items' node) w w' := by
  have growing (s : Nat × Array Ref) : Growing (collectRound ev frame name conditions items rest s) :=
    growing_of_moves (collectRound_moves hmoving.moves frame name conditions items hmoves s)
  have growing' : Growing rest := growing_of_moves hmoves
  -- The comprehension is at a place and has found something; the loop is at the same place and its list holds that.
  refine Along.iterate (Q := fun N n s j => s.1 = j ∧ N.Twins n items items' ∧ N.Holds a n (base ++ s.2.toList))
    (fun N s j v v' _ hlasts hv hq => ?_) h ⟨rfl, hitems, by simpa using hh⟩
  obtain ⟨i, found⟩ := s
  obtain ⟨rfl, htwins, hholds⟩ := hq
  have hread : Moves frame (itemAt? items i) := Plain.moves (Primitive.itemAt items i).plain
  refine Along.meets (k := fun item => ?_) hv hread (item_meets hv.worlds htwins (by rwa [hlasts.typeName hitems.1]) i)
    fun item item' u u' hlasts' hu hrel => ?_
  · cases item <;> infer_instance
  cases hrel with
  | none => exact .pure hu (.inr (hholds.mono hlasts'.cells))
  | some hrel =>
    obtain ⟨q, rfl, hq⟩ := hrel
    have hbinds : N.Binds frame name := fun b hb _ => by
      obtain rfl : b = a := Option.some.inj (hb.symm.trans hu.apart)
      exact hname.symm
    refine Along.meets hu (bind_moves name _) (bind_steady hu.worlds hu.frames hbinds (.value hq)).meets
      fun _ _ t t' hlasts'' ht _ => ?_
    have hle := Nat.le_trans hlasts'.cells hlasts''.cells
    refine (loopBody_along (hbody ht (hholds.mono hle))).bind fun K more again s s' hlater hs hmore => ?_
    obtain ⟨hmore, rfl⟩ := hmore
    refine .pure hs (.inl ⟨rfl, hlater.twins (htwins.mono hle), ?_⟩)
    rw [Array.toList_append, ← append_assoc]
    exact hmore

/-- The loops put into the list what the comprehension finds. -/
theorem nested_along (hs : Setting ev a frame append list) (expression : Node)
    (clauses : List Clause) (hnames : ∀ c ∈ clauses, c.1.text ≠ a.name) (span : Span)
    (h : M.Running a frame w w') (hh : M.Holds a w.size base) :
    Along a frame M (Filling a base) (watched ev frame expression clauses)
      (evaluate (nested span append list expression clauses) frame) w w' := by
  induction clauses generalizing M w w' base with
  | nil => exact leaf_along hs h hh expression span
  | cons c clauses ih =>
    obtain ⟨name, iterable, conditions⟩ := c
    have hmoves := watched_moves hmoving.moves frame expression clauses
    have growing : Growing (watched ev frame expression clauses) := growing_of_moves hmoves
    have hrest : ∀ c ∈ clauses, c.1.text ≠ a.name := fun c hc => hnames c (mem_cons_of_mem _ hc)
    have hbody {N : Matching} {v v' : World} {base : List Ref} (hv : N.Running a frame v v')
        (hholds : N.Holds a v.size base) :=
      block_along (guarded_along hs (ih hrest) conditions span hv hholds) span
    have hcollect {items items' : Ref} {v v' : World} (hlasts : Lasts w v) (hv : M.Running a frame v v')
        (hitems : M.Twins v.size items items') (htype : (v.cell items).payload.typeName = "List" ∨
          (v.cell items).payload.typeName = "Tuple") :=
      each_along hs hmoves hbody (hnames _ mem_cons_self) hitems htype hv (hh.mono hlasts.cells)
    refine .evaluate ?_
    have hsame := hs.meets h.apart (.refl iterable) h.frames h.worlds
    refine Along.meets (k := fun items => .bind inferInstance fun p => ?_) h (hmoving.moves iterable frame) hsame
      fun items items' v v' hlasts hv hitems => .payload ?_
    · have growing := growing_of_moves (collect_moves hmoving.moves frame name.text conditions items hmoves)
      split <;> infer_instance
    have hp := (hv.worlds.cells items items' hitems).payload
    have hcollect := hcollect hlasts hv hitems
    generalize (v.cell items).payload = p, (v'.cell items').payload = p' at hp hcollect ⊢
    cases hp with
    | list | tuple => exact Filling.discard (hcollect (by simp [Payload.typeName])) Store.null
    | _ => exact fun he _ => absurd rfl (he.ends v)

end Comprehension

end Utterance

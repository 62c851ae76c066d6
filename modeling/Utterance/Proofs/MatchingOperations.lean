import Utterance.Proofs.MatchingMachine

/-!
# Operators in matched worlds

Operators do the same in matched worlds (`binary_steady`, `negate_steady`). They compare references with the one of
nothing only, and what they read of a value is the same for values that stand for each other.
-/

namespace Utterance

variable {l l' : List Ref}

namespace Payload.Alike

open Eval

variable {T : Ref → Ref → Prop} {p p' q q' : Payload}

theorem key?_eq (h : p.Alike T p') : p.key? = p'.key? := by
  cases h <;> rfl

theorem equals?_eq (h : p.Alike T p') (hq : q.Alike T q') : p.equals? q = p'.equals? q' := by
  cases h with
  | number a | string a | set a | found a => cases hq <;> rfl
  | _ => cases hq <;> rfl

end Payload.Alike

section

variable {T : Ref → Ref → Prop} {es es' : Array Ref}

theorem size_eq (h : List.Forall₂ T es.toList es'.toList) : es.size = es'.size := h.length_eq

theorem getElem?_alike (h : List.Forall₂ T l l') (i : Nat) : Option.Rel T l[i]? l'[i]? := by
  induction h generalizing i with
  | nil => exact .none
  | cons ha _ ih =>
    cases i with
    | zero => exact .some ha
    | succ i => exact ih i

theorem eraseIdx_alike (h : List.Forall₂ T l l') (k : Nat) : List.Forall₂ T (l.eraseIdx k) (l'.eraseIdx k) := by
  rw [List.eraseIdx_eq_take_drop_succ, List.eraseIdx_eq_take_drop_succ]
  exact List.rel_append (List.forall₂_take k h) (List.forall₂_drop (k + 1) h)

theorem toList_eraseIdxIfInBounds (es : Array Ref) (k : Nat) :
    (es.eraseIdxIfInBounds k).toList = es.toList.eraseIdx k := by
  unfold Array.eraseIdxIfInBounds
  split
  · simp
  · next h => rw [List.eraseIdx_of_length_le]; simpa using h

theorem erase_alike (h : List.Forall₂ T es.toList es'.toList) (k : Nat) :
    List.Forall₂ T (es.eraseIdxIfInBounds k).toList (es'.eraseIdxIfInBounds k).toList := by
  rw [toList_eraseIdxIfInBounds, toList_eraseIdxIfInBounds]
  exact eraseIdx_alike h k

theorem getD_alike (h : List.Forall₂ T l l') (h₀ : T 0 0) (k : Nat) : T (l.getD k 0) (l'.getD k 0) := by
  have hk := getElem?_alike h k
  rw [List.getD_eq_getElem?_getD, List.getD_eq_getElem?_getD]
  generalize l[k]? = a, l'[k]? = a' at hk
  cases hk with
  | none => exact h₀
  | some ha => exact ha

theorem arrayGetElem?_alike (h : List.Forall₂ T es.toList es'.toList) (i : Nat) : Option.Rel T es[i]? es'[i]? := by
  rw [← Array.getElem?_toList, ← Array.getElem?_toList]
  exact getElem?_alike h i

theorem arrayGetD_alike (h : List.Forall₂ T es.toList es'.toList) (h₀ : T 0 0) (k : Nat) :
    T (es.getD k 0) (es'.getD k 0) := by
  have hk := arrayGetElem?_alike h k
  rw [Array.getD_eq_getD_getElem?, Array.getD_eq_getD_getElem?]
  generalize es[k]? = a, es'[k]? = a' at hk
  cases hk with
  | none => exact h₀
  | some ha => exact ha

end

namespace Matching

open Eval

variable {M : Matching} {r r' : Nat} {w w' : World} {C : World → Prop} {α β : Type} {R : Nat → α → β → Prop}
  {left right left' right' : Cell}

variable (hw : M.Worlds w w') (hl : M.Cells w.size left left') (hr : M.Cells w.size right right')

include hw

theorem resultOf_steady {p p' : Payload} (hc : p.isCallable = false)
    (hp : p.Alike (M.Twins w.size) p') : M.Agree (resultOf left p) (resultOf left' p') w w' :=
  allocPlain_steady hw hc hp

theorem liftResult_steady {γ : Type} (x : Except Fault γ) {p : γ → Payload}
    (hc : ∀ a, (p a).isCallable = false := by exact fun _ => rfl)
    (hp : ∀ a, (p a).Alike (M.Twins w.size) (p a) := by exact fun _ => by constructor) :
    M.Agree (do resultOf left (p (← lift x))) (do resultOf left' (p (← lift x))) w w' :=
  .lift hw x fun a => resultOf_steady hw (hc a) (hp a)

theorem setResult_steady (left left' right right' : Cell) (ms : Members) :
    M.Agree (setResult left right ms) (setResult left' right' ms) w w' :=
  allocPlain_steady hw rfl (.set ms)

theorem dictResult_steady {t t' : Table} (ht : Table.Alike (M.Twins w.size) t t') :
    M.Agree (dictResult left t) (dictResult left' t') w w' := by
  refine (newTable_steady hw ht).bind fun n n' v v' _ hv hn => ?_
  rw [← show n = n' from hn]
  exact allocPlain_steady hv rfl (.dict n)

theorem appendForm_steady (s : Scalar) (form : Option (Except Fault String)) :
    M.Agree (appendForm left right s form) (appendForm left' right' s form) w w' := by
  unfold appendForm
  split
  · exact resultOf_steady hw rfl (.string _)
  · exact .error hw _

theorem missingKey_steady (key : Scalar) : M.Steady R (do errorOn left right (← lift (missingKey key)))
      (do errorOn left' right' (← lift (missingKey key))) w w' :=
  .lift hw _ fun details => .error hw details

theorem entry_steady (hr : right.payload.Alike (M.Twins w.size) right'.payload) (n : Nat) :
    M.Agree (entry left right n) (entry left' right' n) w w' := by
  unfold entry
  rw [hr.key?_eq]
  split
  · exact .error hw _
  · next key _ =>
    refine .table hw n fun t t' ht => ?_
    have hk := ht.get? key
    generalize t.get? key = v, t'.get? key = v' at hk
    cases hk with
    | none => exact missingKey_steady hw key
    | some hv => exact .pure hw hv

theorem divide_steady (f : Scalar → Scalar → Except Fault Scalar) (details : String) (a b : Scalar) :
    M.Agree (divide f details left right a b) (divide f details left' right' a b) w w' := by
  unfold divide
  split
  · exact .error hw _
  · exact liftResult_steady hw _

omit hw in
/-- What an operator does is told by what its operands hold. -/
theorem operands_steady {f g : Cell → Cell → Eval Ref} (hl : M.Cells w.size left left')
    (hr : M.Cells w.size right right')
    (h : ∀ p p' q q', p.Alike (M.Twins w.size) p' → q.Alike (M.Twins w.size) q' →
      M.Agree (f { left with payload := p } { right with payload := q })
        (g { left' with payload := p' } { right' with payload := q' }) w w') :
    M.Agree (f left right) (g left' right') w w' :=
  h _ _ _ _ hl.payload hr.payload

include hl hr

theorem add_steady (hq : M.Twins w.size r r') : M.Agree (add left right r) (add left' right' r') w w' := by
  refine operands_steady (f := (add · · r)) (g := (add · · r')) hl hr fun _ _ _ _ hp hp' => ?_
  cases hp with
  | number a =>
    cases hp' with
    | number | string => exact liftResult_steady hw _
    | _ => exact .error hw _
  | string a =>
    cases hp' with
    | number | string => exact liftResult_steady hw _
    | _ => exact .store hw fun s s' hs => hs.printed .quoted hq ▸ appendForm_steady hw a _
  | list hes =>
    refine allocPlain_steady hw rfl (.list ?_)
    rw [Array.toList_push, Array.toList_push]
    exact List.rel_append hes (.cons hq .nil)
  | tuple => exact .error hw _
  | set a =>
    cases hp' with
    | set b => exact setResult_steady hw left left' right right' _
    | _ => exact .error hw _
  | dict n =>
    cases hp' with
    | list hes =>
      unfold add
      dsimp only
      rw [size_eq hes]
      split
      · refine .payload hw (arrayGetD_alike hes hw.null 0) fun k k' hk => ?_
        rw [hk.key?_eq]
        split
        · exact .table hw n fun t t' ht => dictResult_steady hw (ht.set _ (arrayGetD_alike hes hw.null 1))
        · exact .error hw _
      · exact .error hw _
    | _ => exact .error hw _
  | _ => exact .error hw _

theorem sub_steady : M.Agree (sub left right) (sub left' right') w w' := by
  refine operands_steady hl hr fun _ _ _ _ hp hp' => ?_
  cases hp with
  | number a =>
    cases hp' with
    | number b => exact liftResult_steady hw _
    | _ => exact .error hw _
  | list hes =>
    cases hp' with
    | number i =>
      unfold sub
      dsimp only
      rw [size_eq hes]
      split
      · exact allocPlain_steady hw rfl (.list (erase_alike hes _))
      · exact .error hw _
    | _ => exact .error hw _
  | tuple => exact .error hw _
  | set a =>
    cases hp' with
    | set b => exact setResult_steady hw left left' right right' _
    | _ => exact .error hw _
  | dict n =>
    unfold sub
    dsimp only
    rw [hp'.key?_eq]
    split
    · exact .error hw _
    · next key _ =>
      refine .table hw n fun t t' ht => ?_
      have hk := ht.get? key
      generalize t.get? key = v, t'.get? key = v' at hk
      cases hk with
      | none => exact missingKey_steady hw key
      | some _ => exact dictResult_steady hw (ht.erase key)
  | _ => exact .error hw _

theorem mul_steady : M.Agree (mul left right) (mul left' right') w w' := by
  refine operands_steady hl hr fun _ _ _ _ hp hp' => ?_
  cases hp with
  | number | string =>
    cases hp' with
    | number b => exact liftResult_steady hw _
    | _ => exact .error hw _
  | list hes =>
    cases hp' with
    | list hes' =>
      refine allocPlain_steady hw rfl (.list ?_)
      rw [Array.toList_append, Array.toList_append]
      exact List.rel_append hes hes'
    | _ => exact .error hw _
  | tuple hes =>
    cases hp' with
    | tuple hes' => exact allocPlain_steady hw rfl (.tuple (List.rel_append hes hes'))
    | _ => exact .error hw _
  | _ => exact .error hw _

theorem div_steady : M.Agree (div left right) (div left' right') w w' := by
  refine operands_steady hl hr fun _ _ _ _ hp hp' => ?_
  cases hp with
  | number a =>
    cases hp' with
    | number b => exact divide_steady hw _ _ a b
    | _ => exact .error hw _
  | list hes =>
    cases hp' with
    | number i =>
      unfold div
      dsimp only
      rw [size_eq hes]
      split
      · exact .pure hw (arrayGetD_alike hes hw.null _)
      · exact .error hw _
    | _ => exact .error hw _
  | tuple hes =>
    cases hp' with
    | number i =>
      unfold div
      dsimp only
      rw [hes.length_eq]
      split
      · exact .pure hw (getD_alike hes hw.null _)
      · exact .error hw _
    | _ => exact .error hw _
  | set => exact .error hw _
  | dict n => exact entry_steady hw hp' n
  | _ => exact .error hw _

theorem mod_steady : M.Agree (mod left right) (mod left' right') w w' := by
  refine operands_steady hl hr fun _ _ _ _ hp hp' => ?_
  cases hp with
  | number a =>
    cases hp' with
    | number b => exact divide_steady hw _ _ a b
    | _ => exact .error hw _
  | _ => exact .fault hw _

theorem eq_steady : M.Agree (eq left right) (eq left' right') w w' := by
  unfold eq
  rw [hl.payload.equals?_eq hr.payload]
  split
  · exact resultOf_steady hw rfl (.number _)
  · exact .error hw _

theorem ne_steady : M.Agree (ne left right) (ne left' right') w w' := by
  have hp := hl.payload
  unfold ne
  rw [hp.equals?_eq hr.payload]
  generalize left'.payload.equals? right'.payload = e
  generalize left.payload = p, left'.payload = p' at hp ⊢
  cases hp with
  | found => exact .error hw _
  | _ =>
    cases e with
    | none => exact .error hw _
    | some b => exact resultOf_steady hw rfl (.number _)

theorem order_steady (rel : Scalar.Order) : M.Agree (order rel left right) (order rel left' right') w w' := by
  refine operands_steady hl hr fun _ _ _ _ hp hp' => ?_
  cases hp with
  | number a =>
    cases hp' with
    | number b => exact liftResult_steady hw _
    | _ => exact .error hw _
  | string a =>
    cases hp' with
    | string b => exact liftResult_steady hw _
    | _ => exact .error hw _
  | _ => exact .error hw _

theorem onSets_steady (f : Members → Members → Members) (property : String) :
    M.Agree (onSets f property left right) (onSets f property left' right') w w' := by
  refine operands_steady hl hr fun _ _ _ _ hp hp' => ?_
  cases hp with
  | set a =>
    cases hp' with
    | set b => exact setResult_steady hw left left' right right' _
    | _ => exact .error hw _
  | _ => exact .fault hw _

theorem choose_steady (takeFirst : Scalar → Bool) :
    M.Agree (choose takeFirst left right) (choose takeFirst left' right') w w' := by
  refine operands_steady hl hr fun _ _ _ _ hp hp' => ?_
  cases hp with
  | number a =>
    cases hp' with
    | number b => exact liftResult_steady hw _
    | _ => exact .error hw _
  | _ => exact .error hw _

omit hl hr

theorem binary_steady {l l' : Nat} (hl : M.Twins w.size l l') (hr : M.Twins w.size r r')
    (op : Operator) : M.Agree (binary op l r) (binary op l' r') w w' := by
  refine .cell hw hl fun left left' hl => .cell hw hr fun right right' hc => ?_
  cases op with
  | add => exact add_steady hw hl hc hr
  | sub => exact sub_steady hw hl hc
  | mul => exact mul_steady hw hl hc
  | div => exact div_steady hw hl hc
  | mod => exact mod_steady hw hl hc
  | eq => exact eq_steady hw hl hc
  | ne => exact ne_steady hw hl hc
  | order rel => exact order_steady hw hl hc rel
  | intersect | symmetricDifference => exact onSets_steady hw hl hc _ _
  | and | or => exact choose_steady hw hl hc _

theorem equality?_steady {l l' : Nat} (hl : M.Twins w.size l l') (hr : M.Twins w.size r r') :
    M.Steady (fun n => Option.Rel (M.Twins n)) (equality? l r) (equality? l' r') w w' := by
  refine .cell hw hl fun left left' hl => .cell hw hr fun right right' hr => ?_
  rw [hl.payload.equals?_eq hr.payload]
  split
  · exact (resultOf_steady hw rfl (.number _)).bind fun _ _ _ _ _ hv ht => .pure hv (.some ht)
  · exact .pure hw .none

theorem negate_steady (hr : M.Twins w.size r r') : M.Agree (negate r) (negate r') w w' :=
  .cell hw hr fun _ _ hc => mul_steady hw hc ⟨.number _, .none⟩

theorem negation_steady (hr : M.Twins w.size r r') : M.Agree (negation r) (negation r') w w' := by
  refine .cell hw hr fun c c' hc => ?_
  have hp := hc.payload
  generalize c.payload = p, c'.payload = p' at hp ⊢
  cases hp with
  | number s => exact resultOf_steady hw rfl (.number _)
  | _ => exact .error hw _

theorem Meets.isTrue {g : Bool → Eval α} {g' : Bool → Eval β} (hr : M.Twins w.size r r')
    (h : ∀ b, M.Meets C R (g b) (g' b) w w') : M.Meets C R (isTrue r >>= g) (isTrue r' >>= g') w w' := by
  unfold Eval.isTrue
  rw [bind_assoc, bind_assoc]
  refine .payload hw hr fun p p' hp => ?_
  cases hp with
  | number s => exact h _
  | string s =>
    cases s with
    | text s => exact h _
    | _ => exact .fault hw _
  | @list es es' hes =>
    have he : es.isEmpty = es'.isEmpty := by rw [Array.isEmpty, Array.isEmpty, size_eq hes]
    dsimp only
    rw [he]
    exact h _
  | dict n =>
    rw [bind_assoc, bind_assoc]
    refine .table hw n fun t t' ht => ?_
    have he : t.isEmpty = t'.isEmpty := by cases ht <;> rfl
    rw [he]
    exact h _
  | _ => exact h _

theorem Meets.scalar {g : Scalar → Eval α} {g' : Scalar → Eval β} (hr : M.Twins w.size r r')
    (h : ∀ s, M.Meets C R (g s) (g' s) w w') : M.Meets C R (scalar r >>= g) (scalar r' >>= g') w w' := by
  unfold Eval.scalar
  rw [bind_assoc, bind_assoc]
  refine .payload hw hr fun p p' hp => ?_
  cases hp with
  | number s | string s => exact h s
  | _ => exact .fault hw _

end Matching

end Utterance

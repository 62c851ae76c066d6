import Utterance.Proofs.Reaching

/-!
# Every derivation is read

All that comes from the productions is accepted (`parse_derives`). An expression is read from its first operand on, as
far as what follows goes on with it (`Ready.operand_reach`); from this come expressions, statements and blocks, and
the induction on the number of tokens that are left is closed (`Ready.succ`).

After a statement that gives nothing back, an expression is tried, and what follows may go on with an expression
around the statement. It begins with a sign or with a parenthesis then, and either an expression is read there, whose
end leaves a tail again, or none is (`Ready.expression_of_tail`).
-/

namespace Utterance.Grammar

open Ebnf Filter Reading Spans List

open Token (Kind)

variable {α : Type} {W : Window} {ts e l m r : List Token} {ss : List Stage} {t u : Token} {k : Nat}

namespace Window.Reads

variable {p : Recursion → Reading α}

theorem of_passes (hW : W.left = .ofTokens ts) (hl : l <:+ ts) (h : ∀ᶠ n in atTop, Passes ts (p (read n)) l m) :
    m <:+ l ∧ W.Reads p (place ts l) (place ts m) := by
  obtain ⟨n, hn⟩ := h.exists
  obtain ⟨hm, v, hv⟩ := hn hl
  exact ⟨hm, n, v, hW ▸ hv⟩

private theorem passes (hW : W.left = .ofTokens ts) (hp : Rising p) (hm : m <:+ l)
    (h : W.Reads p (place ts l) (place ts m)) :
    ∀ᶠ n in atTop, Passes ts (p (read n)) l m := by
  obtain ⟨n, hn⟩ := h.large hp
  filter_upwards [eventually_ge_atTop n] with n' hn' _
  exact ⟨hm, hW ▸ hn n' hn'⟩

end Window.Reads

private theorem plain_of_operand (h : Spans operand l r) : ∃ t m, l = t :: m ∧ Plain t := by
  obtain ⟨q, hsigns, hatom⟩ := iff_append.1 h
  refine hsigns.star_induction (P := fun l => ∃ t m, l = t :: m ∧ Plain t) ?_ fun l m hsign _ _ => ?_
  · obtain ⟨t, m, rfl, ht, -⟩ := leads_atom _ _ hatom
    exact ⟨t, m, rfl, plain_of_opensAtom ht⟩
  · obtain ⟨t, ht, rfl⟩ := iff_sign.1 hsign
    exact ⟨t, m, rfl, fun word _ => isKeyword_of_kind (by rcases ht with h | h <;> rw [h] <;> decide) word⟩

namespace Ready

variable (h : Ready ts k) (hW : W.left = .ofTokens ts)

include h hW

private theorem elements_of_tail (hl : l <:+ ts) (hk : l.length ≤ k) (ht : Tail e (.looking :: ss) l) :
    ∃ m, m <:+ l ∧ Tail e (.spent :: ss) m ∧ W.Elements (place ts l) (place ts m) := by
  induction hn : l.length using Nat.strongRecOn generalizing l with
  | ind n ih =>
    subst hn
    obtain ⟨t, q, rfl⟩ := ht.eq_cons
    have hat : W.left.At (place ts (t :: q)) t := hW ▸ at_place hl
    by_cases hkind : t.kind = .atSign
    · obtain ⟨r, hs, hr⟩ := ht.element_elim hkind
      simp only [element, iff_append, iff_kind] at hs
      obtain ⟨_, ⟨_, -, heq⟩, hatom⟩ := hs
      cases heq
      rw [length_cons] at hk
      have hq : q <:+ ts := (suffix_cons t q).trans hl
      obtain ⟨m, hm, hp⟩ := h.atom_reach hatom hr (by omega)
      obtain ⟨hmq, hreads⟩ := Window.Reads.of_passes hW hq hp
      have hlen := hmq.length_le
      obtain ⟨m', hm', htail, hrest⟩ := ih m.length (Nat.lt_succ_of_le hlen) (hmq.trans hq) (by omega) hm rfl
      refine ⟨m', hm'.trans (hmq.trans (suffix_cons t q)), htail, .more hat hkind ?_ hrest⟩
      rw [← place_cons hl]
      exact hreads
    · exact ⟨t :: q, suffix_rfl, ht.spend (fun _ => by decide) fun h => absurd h hkind, .done hat hkind⟩

private theorem suffix_of_tail (hl : l <:+ ts) (hk : l.length ≤ k) (ht : Tail e (.fresh :: ss) l) :
    ∃ m, m <:+ l ∧ Tail e (.spent :: ss) m ∧ W.Suffix (place ts l) (place ts m) := by
  obtain ⟨t, q, rfl⟩ := ht.eq_cons
  have hat : W.left.At (place ts (t :: q)) t := hW ▸ at_place hl
  by_cases hparen : t.kind = .lparen
  · obtain ⟨r, hs, hr⟩ := ht.call_elim hparen
    simp only [arguments, iff_append, iff_kind] at hs
    obtain ⟨_, ⟨_, ⟨_, -, heq⟩, hrow⟩, u, hu, rfl⟩ := hs
    cases heq
    have hp := h.bracketed_passes hrow (by rw [hu]; decide) (by rw [hu]; decide) hk "Expected ',' or ')'"
    rw [hu] at hp
    obtain ⟨hmq, hreads⟩ := Window.Reads.of_passes (p := (bracketed · .rparen "Expected ',' or ')'")) hW
      ((suffix_cons t q).trans hl) hp
    refine ⟨r, hmq.trans (suffix_cons t q), hr, .call hat hparen ?_⟩
    rw [← place_cons hl]
    exact hreads
  · have hlooking : Tail e (.looking :: ss) (t :: q) := by
      by_cases hkind : t.kind = .atSign
      · obtain ⟨r, hs, hr⟩ := ht.element_elim hkind
        exact .element (by decide) hs hr
      · exact (ht.spend (fun h => absurd h hparen) fun h => absurd h hkind).of_spent
    obtain ⟨m, hm, htail, hel⟩ := h.elements_of_tail hW hl hk hlooking
    exact ⟨m, hm, htail, .elements hat hparen hel⟩

private theorem operand_reads (hs : Spans operand l r) (hr : Tail e (.fresh :: ss) r) (hl : l <:+ ts)
    (hk : l.length ≤ k) :
    ∃ m, m <:+ l ∧ Tail e (.spent :: ss) m ∧ W.Reads (fun rec => rec .factor) (place ts l) (place ts m) := by
  obtain ⟨q, hsigns, hatom⟩ := iff_append.1 hs
  refine hsigns.star_induction (P := fun l => l <:+ ts → l.length ≤ k → ∃ m, m <:+ l ∧ Tail e (.spent :: ss) m ∧
    W.Reads (fun rec => rec .factor) (place ts l) (place ts m)) (fun hl hk => ?_) (fun l m hsign _ ih hl hk => ?_) hl hk
  · obtain ⟨t, q, rfl, ht, -⟩ := leads_atom _ _ hatom
    obtain ⟨m, hm, hp⟩ := h.atom_reach hatom hr hk
    obtain ⟨hmq, hreads⟩ := Window.Reads.of_passes hW hl hp
    obtain ⟨m', hm', htail, hsuffix⟩ := h.suffix_of_tail hW (hmq.trans hl) (hmq.length_le.trans hk) hm
    exact ⟨m', hm'.trans hmq, htail, Window.factor_reads (hW ▸ at_place hl) (unsigned_of_opensAtom ht) hreads hsuffix⟩
  · obtain ⟨t, ht, rfl⟩ := iff_sign.1 hsign
    rw [length_cons] at hk
    obtain ⟨m', hm', htail, hreads⟩ := ih ((suffix_cons t m).trans hl) (by omega)
    rw [place_cons hl] at hreads
    exact ⟨m', hm'.trans (suffix_cons t m), htail, Window.signed_reads (hW ▸ at_place hl) ht hreads⟩

private theorem chain_of_tail (hl : l <:+ ts) (hk : l.length ≤ k) (ht : Tail e (.spent :: ss) l) :
    ∃ m, m <:+ l ∧ Tail e ss m ∧ W.Chain (place ts l) (place ts m) := by
  induction hn : l.length using Nat.strongRecOn generalizing l with
  | ind n ih =>
    subst hn
    obtain ⟨t, q, rfl⟩ := ht.eq_cons
    have hat : W.left.At (place ts (t :: q)) t := hW ▸ at_place hl
    cases ho : isOperator t with
    | false => exact ⟨t :: q, suffix_rfl, ht.exit ho, .done _, t, hat, ho⟩
    | true =>
      obtain ⟨r, hs, hr⟩ := ht.operator_elim ho
      rw [length_cons] at hk
      have hq : q <:+ ts := (suffix_cons t q).trans hl
      obtain ⟨m, hm, htail, hreads⟩ := h.operand_reads hW hs hr hq (by omega)
      have hlen := hm.length_le
      obtain ⟨m', hm', hexit, hrest, hend⟩ := ih m.length (Nat.lt_succ_of_le hlen) (hm.trans hq) (by omega) htail rfl
      rw [place_cons hl] at hreads
      exact ⟨m', hm'.trans (hm.trans (suffix_cons t q)), hexit, .more hat ho hreads hrest, hend⟩

theorem operand_reach (hs : Spans operand l r) (hr : Tail e (.fresh :: ss) r) (hk : l.length ≤ k) :
    Reach ts (fun rec => rec .logic) l (Tail e ss) := by
  by_cases hl : l <:+ ts
  · obtain ⟨m, hm, hspent, hreads⟩ := h.operand_reads hW hs hr hl hk
    obtain ⟨m', hm', htail, hchain⟩ := h.chain_of_tail hW (hm.trans hl) (hm.length_le.trans hk) hspent
    obtain ⟨t, q, rfl, ht⟩ := plain_of_operand hs
    have hat : W.left.At (place ts (t :: q)) t := hW ▸ at_place hl
    obtain ⟨n, v, hv⟩ := Window.expression_reads hat ht hreads hchain
    rw [expression_of_plain hat ht] at hv
    exact .of_passes htail (Window.Reads.passes hW (Window.rising_part .logic) (hm'.trans hm) ⟨n, v, hv⟩)
  · exact .of_passes (.stop hr.halting) (.of_forall fun n hl' => absurd hl' hl)

private theorem logic_reach (hs : Spans (.rule .logicExpr) l r) (hr : Tail e ss r) (hk : l.length ≤ k) :
    Reach ts (fun rec => rec .logic) l (Tail e ss) := by
  obtain ⟨m, q, hnots, hoperand, htail⟩ := flat_logicExpr hs hr
  refine hnots.star_induction (P := fun l => l.length ≤ k → Reach ts (fun rec => rec .logic) l (Tail e ss))
    (h.operand_reach hW hoperand htail) (fun l m hnot _ ih hk => ?_) hk
  obtain ⟨t, ht, rfl⟩ := iff_word.1 hnot
  refine .read (p := Grammar.logic) (fun n => rfl) ((ih (Nat.le_of_succ_le hk)).imp (.of_forall fun n m' hn => ?_))
  exact .isWord_then ht (.token (.advance (hn.bind fun _ => .pure _)))

end Ready

theorem Reach.expression {K : List Token → Prop} (ht : ∀ w ∈ ["put", "keep", "show"], t.isKeyword w = false)
    (h : Reach ts (fun rec => rec .logic) (t :: l) K) : Reach ts expression (t :: l) K := by
  refine h.imp (.of_forall fun n m hn => ?_)
  exact .skipWord_else (ht "put" (by decide)) (.skipWord_else (ht "keep" (by decide))
    (.skipWord_else (ht "show" (by decide)) hn))

/-! ### Statements -/

private theorem fails_of_atom (hp : Plain t) (hu : Unsigned t) (h : ∀ᶠ n in atTop, Fails ts (atom (read n)) (t :: l)) :
    ∀ᶠ n in atTop, Fails ts (expression (read n)) (t :: l) := by
  filter_upwards [eventually_succ (eventually_succ h)] with _ ⟨_, hn, n, hn', h⟩ hl
  obtain ⟨d, j, hd⟩ := h hl
  obtain ⟨d', hd'⟩ := expression_fails (at_place hl) hp hu hd
  rw [hn, hn']
  exact ⟨d', j, hd'⟩

theorem fails_of_not_starts (hs : starts t = false) (l : List Token) :
    ∀ᶠ n in atTop, Fails ts (expression (read n)) (t :: l) := by
  refine fails_of_atom (plain_of_not_starts hs) (unsigned_of_not_starts hs) (.of_forall fun n hl => ?_)
  obtain ⟨d, hd⟩ := atom_fails (at_place hl) hs (read n)
  exact ⟨d, _, hd⟩

private theorem fails_of_parenthesised (ht : t.kind = .lparen) (h : ∀ᶠ n in atTop, Fails ts (read n .logic) l ∨
    ∃ u q, u.kind ≠ .rparen ∧ Passes ts (read n .logic) l (u :: q)) :
    ∀ᶠ n in atTop, Fails ts (expression (read n)) (t :: l) := by
  refine fails_of_atom (fun word _ => isKeyword_of_kind (by rw [ht]; decide) word) (by rw [Unsigned, ht]; decide) ?_
  filter_upwards [h] with n hn hl
  have hl' := (suffix_cons t l).trans hl
  have hplace := place_cons hl
  rcases hn with hn | ⟨u, q, hu, hn⟩
  · obtain ⟨d, j, hd⟩ := hn hl'
    rw [hplace] at hd
    obtain ⟨d', hd'⟩ := Window.parenthesised_fails (at_place hl) ht (.inl ⟨d, hd⟩)
    exact ⟨d', j, hd'⟩
  · obtain ⟨hq, v, hv⟩ := hn hl'
    rw [hplace] at hv
    obtain ⟨d', hd'⟩ := Window.parenthesised_fails (at_place hl) ht
      (.inr ⟨v, u, hv, at_place (hq.trans hl'), hu⟩)
    exact ⟨d', _, hd'⟩

namespace Ready

variable (h : Ready ts k) (hW : W.left = .ofTokens ts)

include h hW

/-- Arguments of a call are read as an expression of their own if there is one of them, and else no expression is
read. -/
theorem expression_of_arguments (hs : Spans arguments l r) (hr : Tail e (.spent :: ss) r) (s : Stage)
    (hk : l.length < k) :
    Reach ts expression l (Tail e (s :: ss)) ∨ ∀ᶠ n in atTop, Fails ts (expression (read n)) l := by
  simp only [arguments, iff_append, iff_kind] at hs
  obtain ⟨_, ⟨q, ⟨u, hu, rfl⟩, hrow⟩, v, hv, rfl⟩ := hs
  rcases iff_opt.1 hrow with rfl | hrow
  · have hstart : starts v = false := starts_of_halts (halts_of_kind (by rw [hv]; decide))
    refine .inr (fails_of_parenthesised hu ?_)
    filter_upwards [fails_of_not_starts hstart r] with n hn
    refine .inl fun hl => ?_
    rw [← expression_of_plain (at_place hl) (plain_of_not_starts hstart)]
    exact hn hl
  · obtain ⟨m, hfirst, hmore⟩ := iff_append.1 hrow
    rcases hmore.star_cases with rfl | ⟨m', hnext, -⟩
    · -- one argument: the parentheses are read as an atom
      have hatom : Spans (.rule .atom) (u :: q) r := by
        rw [iff_rule]
        simp only [accepted, documented, iff_or, iff_append, iff_kind]
        exact .inl (.inl (.inl (.inl (.inl (.inl (.inr ⟨_, ⟨_, ⟨u, hu, rfl⟩, hfirst⟩, v, hv, rfl⟩))))))
      exact .inl (.expression (fun w _ => isKeyword_of_kind (by rw [hu]; decide) w)
        (h.operand_reach hW hatom.operand_of_atom (hr.freshen.insert s) (Nat.le_of_lt hk)))
    · -- several arguments: the closing parenthesis is missed after the first one
      obtain ⟨_, hcomma, -⟩ := iff_append.1 hnext
      obtain ⟨c, hc, rfl⟩ := iff_kind.1 hcomma
      refine .inr (fails_of_parenthesised hu ?_)
      filter_upwards [h.exactly hfirst (.of_kind (by rw [hc]; decide)) (Nat.lt_of_succ_lt hk)] with n hn
      exact .inr ⟨c, _, by rw [hc]; decide, hn⟩

/-- An operator with its operand is read as an expression if the operator is a sign. -/
theorem expression_of_operator (ho : isOperator u = true) (hs : Spans operand l r)
    (hr : Tail e (.fresh :: ss) r) (s : Stage)
    (hk : l.length < k) :
    Reach ts expression (u :: l) (Tail e (s :: ss)) ∨ ∀ᶠ n in atTop, Fails ts (expression (read n)) (u :: l) := by
  by_cases hsign : u.kind = .plus ∨ u.kind = .minus
  · obtain ⟨m, hsigns, hatom⟩ := iff_append.1 hs
    have hoperand := iff_append.2 ⟨m, .star_cons (iff_sign.2 ⟨u, hsign, rfl⟩) hsigns, hatom⟩
    exact .inl (.expression (fun w _ => isKeyword_of_kind (by rcases hsign with hu | hu <;> rw [hu] <;> decide) w)
      (h.operand_reach hW hoperand (hr.insert s) hk))
  · exact .inr (fails_of_not_starts (Window.not_starts_of_isOperator ho hsign) l)

/-- What goes on with an expression is read as an expression of its own, or none is read there. -/
theorem expression_of_tail (hr : Tail e ss r) (hk : r.length < k) :
    Reach ts expression r (Tail e ss) ∨ ∀ᶠ n in atTop, Fails ts (expression (read n)) r := by
  obtain ⟨u, q, rfl⟩ := hr.eq_cons
  cases hs : starts u with
  | false => exact .inr (fails_of_not_starts hs q)
  | true =>
    obtain ⟨s, ss, rfl⟩ := hr.exists_stage (by simp [halts, hs])
    rcases hr.head_cases with heq | ⟨r, hargs, hrest⟩ | ⟨r, hel, -⟩ | ⟨_, _, r, heq, ho, hoperand, hrest⟩
    · obtain ⟨_, _, rfl, hu⟩ := hr.halting
      cases heq
      rw [starts_of_halts hu] at hs
      cases hs
    · exact h.expression_of_arguments hW hargs hrest s hk
    · obtain ⟨_, hel, -⟩ := iff_append.1 hel
      obtain ⟨_, hu, heq⟩ := iff_kind.1 hel
      cases heq
      exact absurd hu (kind_ne_of_starts hs (by decide) (by decide))
    · cases heq
      exact h.expression_of_operator hW ho hoperand hrest s (Nat.lt_of_succ_lt hk)

private theorem place_reach (hs : Spans (.opt (.kind .atSign ++ .rule .logicExpr)) l r) (hr : Tail e ss r)
    (hk : l.length < k) :
    ∃ m, Tail e ss m ∧ ∀ᶠ n in atTop, ∀ x : Node, Passes ts (do
      if ← skipKind .atSign then
        let _ ← read n .logic
        return x
      else return x) l m := by
  rcases iff_opt.1 hs with rfl | hs
  · obtain ⟨u, q, rfl⟩ := hr.eq_cons
    by_cases hu : u.kind = .atSign
    · obtain ⟨s, ss, rfl⟩ := hr.exists_stage (by simp [halts, hu])
      obtain ⟨r, hel, hrest⟩ := hr.element_elim hu
      obtain ⟨_, hat, hatom⟩ := iff_append.1 hel
      obtain ⟨_, -, heq⟩ := iff_kind.1 hat
      cases heq
      obtain ⟨m, hm, hp⟩ := h.operand_reach hW hatom.operand_of_atom (hrest.freshen.insert s)
        (Nat.le_of_lt (Nat.lt_of_succ_lt hk))
      refine ⟨m, hm, ?_⟩
      filter_upwards [hp] with n hn x
      exact .skipKind_then hu (hn.bind fun _ => .pure _)
    · exact ⟨u :: q, hr, .of_forall fun n x => .skipKind_else hu (.pure _)⟩
  · obtain ⟨_, hat, hplace⟩ := iff_append.1 hs
    obtain ⟨u, hu, rfl⟩ := iff_kind.1 hat
    obtain ⟨m, hm, hp⟩ := h.logic hplace hr (Nat.lt_of_succ_lt hk)
    refine ⟨m, hm, ?_⟩
    filter_upwards [hp] with n hn x
    exact .skipKind_then hu (hn.bind fun _ => .pure _)

private theorem expression_reach (hs : Spans (.rule .expr) l r) (hr : Tail e ss r) (hk : l.length ≤ k) :
    Reach ts expression l (Tail e ss) := by
  rw [iff_rule] at hs
  simp only [accepted, documented, iff_or] at hs
  rcases hs with ((hs | hs) | hs) | hs
  · obtain ⟨_, hs, hplace⟩ := iff_append.1 hs
    simp only [iff_append, iff_kind, iff_word] at hs
    obtain ⟨_, ⟨_, ⟨q, ⟨t, ht, rfl⟩, hvalue⟩, w, hw, rfl⟩, v, hv, rfl⟩ := hs
    have hlen := hvalue.suffix.length_le
    simp only [length_cons] at hk hlen
    obtain ⟨m, hm, hp⟩ := h.place_reach hW hplace hr (by omega)
    refine .of_passes hm ?_
    filter_upwards [h.exactly hvalue (.of_word hw (by decide)) (by omega), hp] with n hvalue hplace
    exact .skipWord_then ht (hvalue.bind fun _ => .expectWord hw (.bind (.identifier hv _) fun _ => hplace _))
  · simp only [iff_append, iff_kind, iff_word] at hs
    obtain ⟨_, ⟨_, ⟨q, ⟨t, ht, rfl⟩, hvalue⟩, w, hw, rfl⟩, v, hv, rfl⟩ := hs
    refine .of_passes hr ?_
    filter_upwards [h.exactly hvalue (.of_word hw (by decide)) hk] with n hvalue
    exact .skipWord_else (by rw [isKeyword_of_isKeyword ht]; decide) (.skipWord_then ht (hvalue.bind fun _ =>
      .expectWord hw (.bind (.identifier hv _) fun _ => .pure _)))
  · obtain ⟨q, hword, hvalue⟩ := iff_append.1 hs
    obtain ⟨t, ht, rfl⟩ := iff_word.1 hword
    refine (h.logic hvalue hr hk).imp (.of_forall fun n m hn => ?_)
    exact .skipWord_else (by rw [isKeyword_of_isKeyword ht]; decide) (.skipWord_else
      (by rw [isKeyword_of_isKeyword ht]; decide) (.skipWord_then ht (hn.bind fun _ =>
        .start fun _ => .stop fun _ => .pure _)))
  · obtain ⟨t, q, rfl, ht, -⟩ := leads_logicExpr_words _ _ hs
    exact .expression (fun w hw => ht w (by revert w; decide)) (h.logic_reach hW hs hr hk)

private theorem statement_reach (hs : Spans (.rule .statement) l r) (hr : Tail e ss r) (hk : l.length ≤ k) :
    Reach ts (fun rec => rec .statement) l (Tail e ss) := by
  refine .read (p := fun rec => do return (← Grammar.statement rec).1) (fun n => rfl) ?_
  rw [iff_rule] at hs
  rcases iff_or.1 hs with hs | hs
  · obtain ⟨q, hword, hvalue⟩ := iff_append.1 hs
    obtain ⟨t, ht, rfl⟩ := iff_word.1 hword
    have hno (w : String) (hw : ("give" == w) = false) : t.isKeyword w = false := (isKeyword_of_isKeyword ht w).trans hw
    have hgive : Reach ts expression q (Tail e ss) ∨ Tail e ss q ∧ ∀ᶠ n in atTop, Fails ts (expression (read n)) q := by
      rcases iff_opt.1 hvalue with rfl | hvalue
      · exact (h.expression_of_tail hW hr hk).imp_right fun hf => ⟨hr, hf⟩
      · obtain ⟨u, q, rfl, hu, -⟩ := leads_logicExpr_words _ _ hvalue
        exact .inl (.expression (fun w hw => hu w (by revert w; decide)) (h.logic hvalue hr hk))
    rcases hgive with hp | ⟨hq, hf⟩
    · refine hp.imp (.of_forall fun n m hn => ?_)
      exact .bind (.start fun _ => .isWord_else (hno _ (by decide)) (.isWord_else (hno _ (by decide)) (.skipWord_then ht
        (.attempt hn fun _ => .start fun _ => .pure _)))) fun _ => .pure _
    · refine .of_passes hq ?_
      filter_upwards [hf] with n hn
      exact .bind (.start fun _ => .isWord_else (hno _ (by decide)) (.isWord_else (hno _ (by decide)) (.skipWord_then ht
        (.attempt_fail hn fun _ => .start fun _ => .pure _)))) fun _ => .pure _
  · obtain ⟨t, q, rfl, ht, -⟩ := leads_expr _ _ hs
    refine (h.expression_reach hW hs hr hk).imp (.of_forall fun n m hn => ?_)
    exact .bind (.start fun _ => .isWord_else (ht _ (by decide)) (.isWord_else (ht _ (by decide))
      (.skipWord_else (ht _ (by decide)) (.skipWord_else (ht _ (by decide)) (.skipWord_else (ht _ (by decide))
        ((hn.reword _).bind fun _ => .pure _)))))) fun _ => .pure _

/-- A statement before a token that goes on with nothing is read exactly. -/
theorem statement_passes (hs : Spans (.rule .statement) l r) (hr : Halting r) (hk : l.length ≤ k) :
    ∀ᶠ n in atTop, Passes ts (read n .statement) l r := by
  obtain ⟨m, hm, hp⟩ := h.statement_reach hW hs (.stop hr : Tail r [] r) hk
  cases hm.eq_of_nil
  exact hp

end Ready

section

variable (hs : Spans (.star (.kind .newline)) l (u :: r)) (hu : u.kind ≠ .newline)
include hs hu

private theorem skipAll_eq (hl : l <:+ ts) {fuel : Nat} (hf : l.length ≤ fuel) :
    skipAll .newline fuel (.ofTokens ts) (place ts l) = .ok (l.length - (u :: r).length) (place ts (u :: r)) := by
  refine hs.star_induction (P := fun l => l <:+ ts → ∀ fuel ≥ l.length,
    skipAll .newline fuel (.ofTokens ts) (place ts l) = .ok (l.length - (u :: r).length) (place ts (u :: r)))
    (fun hl fuel _ => ?_) (fun l m hline hmore ih hl fuel hf => ?_) hl fuel hf
  · rw [Nat.sub_self]
    exact skipAll_none (at_place hl) hu fuel
  · obtain ⟨t, ht, rfl⟩ := iff_kind.1 hline
    rw [length_cons] at hf
    obtain ⟨fuel, rfl⟩ : ∃ f, fuel = f + 1 := ⟨fuel - 1, by omega⟩
    refine (bind_ok (skipKind_at (at_place hl) .newline)).trans ?_
    rw [ht, ← place_cons hl, length_cons, Nat.succ_sub hmore.suffix.length_le]
    exact bind_ok (ih ((suffix_cons t m).trans hl) fuel (by omega))

theorem Passes.newlines {β : Type} {f : Nat → Reading β} (hf : Passes ts (f (l.length - (u :: r).length)) (u :: r) m) :
    Passes ts (newlines >>= f) l m := by
  intro hl
  obtain ⟨hm, b, hb⟩ := hf (hs.suffix.trans hl)
  have hlines : Reading.newlines (.ofTokens ts) (place ts l) = .ok (l.length - (u :: r).length)
      (place ts (u :: r)) := by
    refine skipAll_eq hs hu hl ?_
    simpa [Input.ofList] using Nat.le_succ_of_le hl.length_le
  exact ⟨hm.trans hs.suffix, b, (bind_ok hlines).trans hb⟩

end

namespace Ready

variable (h : Ready ts k) (hW : W.left = .ofTokens ts)

include h hW

private theorem statementsAfter_passes
    (hs : Spans (.star (plus (.kind .newline) ++ .rule .statement) ++ .star (.kind .newline)) l r) (hr : Closing r) :
    Halting l ∧ (l.length ≤ k → ∀ᶠ n in atTop, ∀ fuel > l.length, Passes ts (statementsAfter (read n) fuel) l r) := by
  obtain ⟨q, hmore, hlines⟩ := iff_append.1 hs
  obtain ⟨u, r, rfl, hu, hline⟩ := hr
  refine hmore.star_induction (P := fun l => Halting l ∧ (l.length ≤ k → ∀ᶠ n in atTop, ∀ fuel > l.length,
    Passes ts (statementsAfter (read n) fuel) l (u :: r))) ⟨?_, fun _ => ?_⟩ fun l m hstep _ hm => ?_
  · rcases hlines.star_cases with rfl | ⟨_, hfirst, -⟩
    · exact ⟨u, r, rfl, hu⟩
    · obtain ⟨c, hc, rfl⟩ := iff_kind.1 hfirst
      exact .of_kind (by rw [hc]; decide)
  · filter_upwards [eventually_ge_atTop 3] with n hn fuel hf
    obtain ⟨n, rfl⟩ : ∃ m, n = m + 3 := ⟨n - 3, by omega⟩
    obtain ⟨fuel, rfl⟩ : ∃ f, fuel = f + 1 := ⟨fuel - 1, by omega⟩
    refine .newlines hlines hline ?_
    split
    · exact .pure _
    · refine .attempt_fail (fun hl => ?_) fun _ => .pure _
      obtain ⟨d, hd⟩ := read_statement_fails (at_place hl) (starts_of_halts hu) n
      exact ⟨d, _, hd⟩
  · obtain ⟨q, hplus, hstatement⟩ := iff_append.1 hstep
    obtain ⟨t, q, rfl, ht, -⟩ := leads_statement _ _ hstatement
    obtain ⟨_, hfirst, hlines⟩ := iff_append.1 hplus
    obtain ⟨c, hc, rfl⟩ := iff_kind.1 hfirst
    refine ⟨.of_kind (by rw [hc]; decide), fun hk => ?_⟩
    have hlen := hlines.suffix.length_le
    have hlen' := hstatement.suffix.length_le
    simp only [length_cons] at hk hlen hlen'
    filter_upwards [h.statement_passes hW hstatement hm.1 (by rw [length_cons]; omega), hm.2 (by omega)]
      with n hn hrest fuel hf
    rw [length_cons] at hf
    obtain ⟨fuel, rfl⟩ : ∃ f, fuel = f + 1 := ⟨fuel - 1, by omega⟩
    refine .newlines (.star_cons hfirst hlines) (kind_ne_of_starts ht (by decide) (by decide)) ?_
    rw [if_neg (by simp only [length_cons]; omega)]
    exact .attempt hn fun _ => (hrest fuel (by omega)).bind fun _ => .pure _

private theorem statements_passes (hs : Spans (.rule .statements) l r) (hr : Closing r) (hk : l.length ≤ k) :
    ∀ᶠ n in atTop, Passes ts (Grammar.statements (read n)) l r := by
  obtain ⟨q, hs, hlast⟩ := iff_append.1 (iff_rule.1 hs)
  obtain ⟨m, hs, hmore⟩ := iff_append.1 hs
  obtain ⟨p, hlines, hstatement⟩ := iff_append.1 hs
  obtain ⟨t, p, rfl, ht, -⟩ := leads_statement _ _ hstatement
  obtain ⟨hhalt, hrest⟩ := h.statementsAfter_passes hW (iff_append.2 ⟨q, hmore, hlast⟩) hr
  have hlen := hlines.suffix.length_le
  have hlen' := hstatement.suffix.length_le
  filter_upwards [h.statement_passes hW hstatement hhalt (by omega), hrest (by omega)] with n hn hrest
  exact .start fun _ => .newlines hlines (kind_ne_of_starts ht (by decide) (by decide))
    (.isKind_else (kind_ne_of_starts ht (by decide) (by decide)) (hn.bind fun _ => .bound (.bind
      (fun hm => hrest _ (Nat.lt_succ_of_le hm.length_le) hm) fun _ => .stop fun _ => .pure _)))

theorem succ : Ready ts (k + 1) where
  logic hs hr hk := h.logic_reach hW hs hr (Nat.le_of_lt_succ hk)
  statement hs hr hk := h.statement_reach hW hs hr (Nat.le_of_lt_succ hk)
  statements hs hr hk := by
    filter_upwards [eventually_succ (h.statements_passes hW hs hr (Nat.le_of_lt_succ hk))] with _ ⟨n, hn, hp⟩
    rw [hn]
    exact hp.bind fun _ => .pure _

end Ready

/-- All that comes from the productions is read. -/
theorem ready (hW : W.left = .ofTokens ts) (k : Nat) : Ready ts k := by
  induction k with
  | zero => exact ⟨fun _ _ h => absurd h (Nat.not_lt_zero _), fun _ _ h => absurd h (Nat.not_lt_zero _),
      fun _ _ h => absurd h (Nat.not_lt_zero _)⟩
  | succ k ih => exact ih.succ hW

/-! ### Programs -/

def Ebnf.isInner : Ebnf → Bool
  | kind k => k != .eof
  | word _ => true
  | rule p => p != .program
  | seq a b | alt a b => a.isInner && b.isInner
  | opt a | star a => a.isInner

private theorem isInner_accepted {p : Production} (h : p ≠ .program) : (accepted p).isInner = true := by
  cases p with
  | program => exact absurd rfl h
  | _ => rfl

private theorem Derives.ne_eof {x : Ebnf} (h : Derives accepted x l) (hx : x.isInner = true) :
    ∀ t ∈ l, t.kind ≠ .eof := by
  induction h with
  | kind => simpa [isInner] using hx
  | word hw =>
    rw [forall_mem_singleton, kind_of_isKeyword hw]
    decide
  | rule _ ih => exact ih (isInner_accepted (by simpa [isInner] using hx))
  | seq _ _ iha ihb =>
    rw [isInner, Bool.and_eq_true] at hx
    exact forall_mem_append.2 ⟨iha hx.1, ihb hx.2⟩
  | left _ ih =>
    rw [isInner, Bool.and_eq_true] at hx
    exact ih hx.1
  | right _ ih =>
    rw [isInner, Bool.and_eq_true] at hx
    exact ih hx.2
  | none | nil => exact forall_mem_nil _
  | some _ ih => exact ih hx
  | cons _ _ iha ihb => exact forall_mem_append.2 ⟨iha hx, ihb hx⟩

private theorem at_last (init : List Token) (last : Token) {i : Nat} (hi : init.length ≤ i) :
    (Input.ofTokens (init ++ [last])).At i last := by
  have hlast : tokenAt (init ++ [last]) i = last := by
    rw [tokenAt, getElem?_append_right hi, getLast?_concat]
    cases i - init.length <;> rfl
  have h := at_tokenAt (init ++ [last]) i
  rwa [hlast] at h

def Window.whole (init : List Token) (last : Token) (hlast : last.kind = .eof) (hinit : ∀ t ∈ init, t.kind ≠ .eof) :
    Window where
  left := .ofTokens (init ++ [last])
  right := .ofTokens (init ++ [last])
  len := init.length
  shift := 0
  within i _ := by
    have h := at_tokenAt (init ++ [last]) i
    rw [Nat.add_zero, h]
    exact .token (.refl _)
  inner i hi t ht := by
    have hmem := (Input.at_ofList (by simp; omega)).1 ht
    rw [getElem?_append_left hi] at hmem
    exact hinit t (mem_of_getElem? hmem)
  beyond i hi := ⟨last, at_last init last hi, hlast⟩
  next := ⟨last, at_last init last (Nat.le_refl _), .inr hlast⟩
  size := by simp [Input.ofList]
  size' := by simp [Input.ofList]

private theorem spans_program (h : Derives accepted (.rule .program) ts) :
    ∃ init last, ts = init ++ [last] ∧ last.kind = .eof ∧ (∀ t ∈ init, t.kind ≠ .eof) ∧
      Spans (.rule .statements) ts [last] := by
  obtain ⟨_, hs, hend⟩ := iff_append.1 (iff_rule.1 ⟨ts, h, (append_nil ts).symm⟩)
  obtain ⟨last, hlast, rfl⟩ := iff_kind.1 hend
  obtain ⟨init, hinit, hts⟩ := hs
  refine ⟨init, last, hts, hlast, hinit.ne_eof rfl, iff_rule.2 ?_⟩
  obtain ⟨q, hs, hafter⟩ := iff_append.1 ⟨init, hinit, hts⟩
  obtain ⟨p, hbefore, hs⟩ := iff_append.1 hs
  simp only [accepted, documented, iff_append, iff_rule (p := .statements)] at hs ⊢
  obtain ⟨c, ⟨b, ⟨a, hlines, hfirst⟩, hmore⟩, hlines'⟩ := hs
  exact ⟨c, ⟨b, ⟨a, hbefore.star_trans hlines, hfirst⟩, hmore⟩, hlines'.star_trans hafter⟩

/-- All that comes from the productions is accepted. -/
theorem parse_derives (h : Derives accepted (.rule .program) ts) : ∃ tree, parse (ts.map .token) = .ok tree := by
  obtain ⟨init, last, hts, hlast, hinit, hs⟩ := spans_program h
  have hW : (Window.whole init last hlast hinit).left = .ofTokens ts := by rw [hts]; rfl
  have hclosing : Closing [last] := ⟨last, [], rfl, halts_of_kind (by rw [hlast]; decide), by rw [hlast]; decide⟩
  obtain ⟨n, hn⟩ := ((ready hW ts.length).statements_passes hW hs hclosing (Nat.le_refl _)).exists
  obtain ⟨hend, ⟨tree, reversed⟩, hstatements⟩ := hn suffix_rfl
  have hstart : place ts ts = 0 := Nat.sub_self _
  rw [hstart] at hstatements
  have hprogram : program (read n) (.ofTokens ts) 0 = .ok (.ok tree, reversed) (place ts [last]) := by
    refine (bind_ok hstatements).trans ((bind_ok (isKind_at (at_place hend) .eof)).trans ?_)
    rw [hlast]
    rfl
  exact ⟨tree, parse_of_program ⟨last, by rw [hts]; exact mem_concat_self, hlast⟩ hprogram⟩

namespace Sample

def lexed (kind : Kind) (value : Scalar) : Token := ⟨kind, value, .start ⟨"w", ""⟩, .start ⟨"w", ""⟩⟩

def said (w : String) : Token := lexed .keyword (.text w)

def named (s : String) : Token := lexed .identifier (.text s)

def mark (kind : Kind) : Token := lexed kind .absent

section

variable {g : Production → Ebnf}

theorem derives_mark (k : Kind) : Derives g (.kind k) [mark k] := Derives.kind (t := mark k)

private theorem derives_name (s : String) : Derives g (.kind .identifier) [named s] := Derives.kind (t := named s)

theorem derives_said (w : String) : Derives g (.word w) [said w] := .word (beq_self_eq_true w)

theorem derives_before {a b : Ebnf} (h : Derives g a l) (hb : Derives g b []) : Derives g (a ++ b) l := by
  have hab := h.seq hb
  rwa [append_nil] at hab

variable (hg : g = documented ∨ g = accepted)
include hg

theorem derives_logicExpr (h : Derives g (.rule .factor) l) : Derives g (.rule .logicExpr) l := by
  rcases hg with rfl | rfl
  all_goals
    have term := Derives.rule (p := .term) (derives_before h .nil)
    have arith := Derives.rule (p := .arithExpr) (derives_before term .nil)
    have comp := Derives.rule (p := .compExpr) (derives_before arith .nil)
    exact .rule (.right (derives_before comp .nil))

theorem derives_atom (h : Derives g (.rule .atom) l) : Derives g (.rule .factor) l := by
  rcases hg with rfl | rfl
  all_goals exact .rule (.right (.rule (.left (derives_before h .none))))

theorem derives_named (s : String) : Derives g (.rule .atom) [named s] := by
  rcases hg with rfl | rfl
  all_goals
    exact .rule (.left (.left (.left (.left (.left (.left (.left (.left (.left (.right (derives_name s)))))))))))

private theorem derives_statement (h : Derives g (.rule .factor) l) : Derives g (.rule .statement) l := by
  have logic := derives_logicExpr hg h
  rcases hg with rfl | rfl
  all_goals exact .rule (.right (.rule (.right logic)))

private theorem derives_statements (h : Derives g (.rule .statement) l) : Derives g (.rule .statements) l := by
  rcases hg with rfl | rfl
  all_goals exact .rule (derives_before (derives_before (.seq .nil h) .nil) .nil)

theorem derives_program (h : Derives g (.rule .factor) l) : Derives g (.rule .program) (l ++ [mark .eof]) := by
  have statements := derives_statements hg (derives_statement hg h)
  rcases hg with rfl | rfl
  all_goals exact .rule (.seq (derives_before (.seq .nil statements) .nil) (derives_mark .eof))

end

/-- A body that gives nothing back, and arguments for the conditional: `when c: give (x)`. The arguments are read as
what is given back. -/
def calledConditional : List Token :=
  [said "when", named "c", mark .colon, said "give", mark .lparen, named "x", mark .rparen, mark .eof]

theorem parse_derives_conditional :
    Derives accepted (.rule .program) calledConditional ∧ ∃ tree, parse (calledConditional.map .token) = .ok tree := by
  have logic (s : String) := derives_logicExpr (.inr rfl) (derives_atom (.inr rfl) (derives_named (.inr rfl) s))
  have give : Derives accepted (.rule .statement) [said "give"] := .rule (.left (.seq (derives_said "give") .none))
  have conditional : Derives accepted (.rule .ifExpr) [said "when", named "c", mark .colon, said "give"] :=
    .rule (.seq (.seq (.seq (derives_said "when") (logic "c")) (derives_mark .colon)) (.right give))
  have arguments : Derives accepted (.kind .lparen ++ row (.rule .logicExpr) ++ .kind .rparen)
      [mark .lparen, named "x", mark .rparen] :=
    .seq (.seq (derives_mark .lparen) (.some (.seq (logic "x") .nil))) (derives_mark .rparen)
  have atom : Derives accepted (.rule .atom) _ := .rule (.left (.left (.left (.left (.right conditional)))))
  have call : Derives accepted (.rule .call) calledConditional.dropLast := .rule (.left (.seq atom (.some arguments)))
  have program := derives_program (.inr rfl) (.rule (.right call))
  exact ⟨program, parse_derives program⟩

def signedPlace : List Token := [named "a", mark .atSign, mark .minus, named "b", mark .eof]

/-- A second `end` for the last case: `when a:`, `b`, `otherwise:`, `c`, `end end`. -/
def secondEnd : List Token :=
  [said "when", named "a", mark .colon, mark .newline, named "b", said "otherwise", mark .colon,
    mark .newline, named "c",
    said "end", said "end", mark .eof]

/-- A last case on one line: `when a:`, `b`, `otherwise: c end`. -/
def shortOtherwise : List Token :=
  [said "when", named "a", mark .colon, mark .newline, named "b", said "otherwise", mark .colon, named "c", said "end",
    mark .eof]

/-- Another case on one line: `when a:`, `b`, `otherwise when c: d end`. -/
def shortCase : List Token :=
  [said "when", named "a", mark .colon, mark .newline, named "b", said "otherwise", said "when", named "c", mark .colon,
    named "d", said "end", mark .eof]

/-- A loop through a collection on one line: `cycle each a through b: c`. -/
def shortLoop : List Token :=
  [said "cycle", said "each", named "a", said "through", named "b", mark .colon, named "c", mark .eof]

private theorem derives_conditional {more : List Token}
    (h : Derives documented (.rule .ifElif ||| .rule .ifElse) more) :
    Derives documented (.rule .program)
      ([said "when", named "a", mark .colon, mark .newline, named "b"] ++ more ++ [said "end", mark .eof]) := by
  have factor (s : String) := derives_atom (.inl rfl) (derives_named (.inl rfl) s)
  have logic := derives_logicExpr (.inl rfl) (factor "a")
  have block : Derives documented block [mark .newline, named "b"] :=
    .seq (derives_mark .newline) (derives_statements (.inl rfl) (derives_statement (.inl rfl) (factor "b")))
  have conditional : Derives documented (.rule .ifExpr) _ := .rule (.seq (.seq (.seq (derives_said "when") logic)
    (derives_mark .colon)) (.left (.seq (.seq block (.some h)) (derives_said "end"))))
  have program := derives_program (.inl rfl) (derives_atom (.inl rfl)
    (.rule (.left (.left (.left (.left (.right conditional)))))))
  simpa using program

/-- Tokens are documented as a program, and they are refused. -/
def Refused (ts : List Token) : Prop :=
  Derives documented (.rule .program) ts ∧ ∃ d, parse (ts.map .token) = .error (.diagnostic d)

theorem parse_refuses_documented :
    Refused signedPlace ∧ Refused secondEnd ∧ Refused shortOtherwise ∧ Refused shortCase ∧ Refused shortLoop := by
  have factor (s : String) := derives_atom (.inl rfl) (derives_named (.inl rfl) s)
  have logic (s : String) := derives_logicExpr (.inl rfl) (factor s)
  have statement (s : String) := derives_statement (.inl rfl) (factor s)
  have block (s : String) : Derives documented block [mark .newline, named s] :=
    .seq (derives_mark .newline) (derives_statements (.inl rfl) (statement s))
  refine ⟨⟨?_, _, rfl⟩, ⟨?_, _, rfl⟩, ⟨?_, _, rfl⟩, ⟨?_, _, rfl⟩, ?_, _, rfl⟩
  · have place : Derives documented (.rule .factor) [mark .minus, named "b"] :=
      .rule (.left (.seq (.right (derives_mark .minus)) (factor "b")))
    exact derives_program (.inl rfl) (.rule (.right (.rule (.right (.seq (derives_named (.inl rfl) "a")
      (.some (.seq (derives_mark .atSign) (derives_logicExpr (.inl rfl) place))))))))
  · exact derives_conditional (.right (.rule (.seq (.seq (derives_said "otherwise") (derives_mark .colon))
      (.left (.seq (block "c") (derives_said "end"))))))
  · exact derives_conditional (.right (.rule (.seq (.seq (derives_said "otherwise") (derives_mark .colon))
      (.right (statement "c")))))
  · exact derives_conditional (.left (.rule (.seq (.seq (.seq (.seq (derives_said "otherwise") (derives_said "when"))
      (logic "c")) (derives_mark .colon)) (.right (statement "d")))))
  · have loop : Derives documented (.rule .loopExpr) shortLoop.dropLast :=
      .rule (.right (.seq (.seq (.seq (.seq (.seq (.seq (derives_said "cycle") (derives_said "each"))
        (derives_name "a"))
        (derives_said "through")) (logic "b")) (derives_mark .colon)) (.right (statement "c"))))
    exact derives_program (.inl rfl) (derives_atom (.inl rfl) (.rule (.left (.left (.left (.right loop))))))

end Sample

end Utterance.Grammar

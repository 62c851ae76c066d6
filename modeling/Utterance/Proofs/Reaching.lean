import Utterance.Proofs.Passages

/-!
# Rules that are read

`Ready` says what is read where fewer than some number of tokens are left: expressions and statements are read up to
where what follows is a tail as before, and blocks are read exactly. Then atoms are read where one token more is left,
since all that is inside an atom comes after a first token (`Ready.atom_reach`).
-/

namespace Utterance.Grammar

open Ebnf Filter Reading Spans List

open Token (Kind)

variable {α : Type} {ts e l m r : List Token} {ss : List Stage} {t u : Token} {k : Nat}

theorem Halting.of_kind (h : haltKind t.kind = true) : Halting (t :: l) := ⟨t, l, rfl, halts_of_kind h⟩

theorem Halting.of_word {word : String} (h : t.isKeyword word = true) (hw : haltWord word = true) : Halting (t :: l) :=
  ⟨t, l, rfl, halts_of_word h hw⟩

/-- What can follow a block: a token that goes on with nothing, and no line end. -/
def Closing (r : List Token) : Prop := ∃ u q, r = u :: q ∧ halts u = true ∧ u.kind ≠ .newline

theorem Closing.of_word {word : String} (h : t.isKeyword word = true) (hw : haltWord word = true) : Closing (t :: l) :=
  ⟨t, l, rfl, halts_of_word h hw, by rw [kind_of_isKeyword h]; decide⟩

/-- What comes from the productions is read where fewer than `k` tokens are left. -/
structure Ready (ts : List Token) (k : Nat) : Prop where
  logic {e l r : List Token} {ss : List Stage} : Spans (.rule .logicExpr) l r → Tail e ss r → l.length < k →
    Reach ts (fun rec => rec .logic) l (Tail e ss)
  statement {e l r : List Token} {ss : List Stage} : Spans (.rule .statement) l r → Tail e ss r → l.length < k →
    Reach ts (fun rec => rec .statement) l (Tail e ss)
  statements {l r : List Token} : Spans (.rule .statements) l r → Closing r → l.length < k →
    ∀ᶠ n in atTop, Passes ts (read n .statements) l r

/-- An expression before a token that goes on with nothing is read exactly. -/
theorem Ready.exactly (h : Ready ts k) (hs : Spans (.rule .logicExpr) l r) (hr : Halting r) (hl : l.length < k) :
    ∀ᶠ n in atTop, Passes ts (read n .logic) l r := by
  obtain ⟨m, hm, hp⟩ := h.logic hs (.stop hr : Tail r [] r) hl
  cases hm.eq_of_nil
  exact hp

section

variable {x : Ebnf} {item : Nat → Reading α}
  (hitem : ∀ l r, Spans x l r → Halting r → l.length < k → ∀ᶠ n in atTop, Passes ts (item n) l r)

include hitem

section

variable (h : Spans (.star (.kind .comma ++ x)) l (u :: r)) (hu : haltKind u.kind = true) (hc : u.kind ≠ .comma)
include h hu hc

theorem manyAfter_passes : Halting l ∧ (l.length ≤ k → ∀ᶠ n in atTop, ∀ fuel > l.length,
      Passes ts (manyAfter (skipKind .comma) (item n) fuel) l (u :: r)) := by
  refine h.star_induction (P := fun l => Halting l ∧ (l.length ≤ k → ∀ᶠ n in atTop, ∀ fuel > l.length,
    Passes ts (manyAfter (skipKind .comma) (item n) fuel) l (u :: r)))
    ⟨.of_kind hu, fun _ => .of_forall fun n fuel hf => ?_⟩ fun l m hstep _ hm => ?_
  · obtain ⟨fuel, rfl⟩ : ∃ f, fuel = f + 1 := ⟨fuel - 1, by omega⟩
    exact .skipKind_else hc (.pure _)
  · obtain ⟨q, hcomma, hx⟩ := iff_append.1 hstep
    obtain ⟨c, hk, rfl⟩ := iff_kind.1 hcomma
    refine ⟨.of_kind (by rw [hk]; decide), fun hl => ?_⟩
    rw [length_cons] at hl
    have hlen := hx.suffix.length_le
    filter_upwards [hitem q m hx hm.1 (by omega), hm.2 (by omega)] with n hfirst hmore fuel hf
    rw [length_cons] at hf
    obtain ⟨fuel, rfl⟩ : ∃ f, fuel = f + 1 := ⟨fuel - 1, by omega⟩
    exact .skipKind_then hk (hfirst.bind fun _ => (hmore fuel (by omega)).bind fun _ => .pure _)

theorem many_passes (hl : l.length ≤ k) : ∀ᶠ n in atTop, Passes ts (many (skipKind .comma) (item n)) l (u :: r) := by
  filter_upwards [(manyAfter_passes hitem h hu hc).2 hl] with n hmany
  exact .bound fun hs => hmany _ (Nat.lt_succ_of_le hs.length_le) hs

end

theorem commaSeparated_passes (h : Spans (x ++ .star (.kind .comma ++ x)) l (u :: r)) (hu : haltKind u.kind = true)
    (hc : u.kind ≠ .comma) (hl : l.length < k) :
    ∀ᶠ n in atTop, Passes ts (commaSeparated (item n)) l (u :: r) := by
  obtain ⟨m, hx, hmore⟩ := iff_append.1 h
  have hlen := hx.suffix.length_le
  filter_upwards [hitem l m hx (manyAfter_passes hitem hmore hu hc).1 hl, many_passes hitem hmore hu hc (by omega)]
    with n hfirst hmany
  exact hfirst.bind fun _ => hmany.bind fun _ => .pure _

end

theorem kind_ne_of_starts {kind : Kind} (h : starts t = true) (hk : kind ≠ .keyword) (hs : kind ∉ startKinds) :
    t.kind ≠ kind := by
  rintro rfl
  rw [starts, Bool.or_eq_true, any_eq_true] at h
  rcases h with h | ⟨w, -, h⟩
  · exact hs (contains_iff_mem.1 h)
  · exact hk (kind_of_isKeyword h)

namespace Ready

variable (h : Ready ts k)

include h

theorem bracketed_passes (hs : Spans (row (.rule .logicExpr)) l (u :: r)) (hu : haltKind u.kind = true)
    (hc : u.kind ≠ .comma) (hl : l.length < k) (details : String) :
    ∀ᶠ n in atTop, Passes ts (bracketed (read n) u.kind details) l r := by
  rcases iff_opt.1 hs with rfl | hs
  · exact .of_forall fun n => .skipKind_then rfl (.pure _)
  · obtain ⟨t, m, rfl, ht, -⟩ := (leads_logicExpr_starts.append) _ _ hs
    have hne : t.kind ≠ u.kind := by
      intro heq
      have := starts_of_halts (halts_of_kind (heq ▸ hu))
      rw [ht] at this
      cases this
    filter_upwards [commaSeparated_passes (fun _ _ => h.exactly) hs hu hc hl] with n hn
    exact .skipKind_else hne (hn.bind fun _ => .expectKind rfl (.pure _))

theorem list_passes (hs : Spans (.rule .listExpr) l r) (hl : l.length ≤ k) :
    ∀ᶠ n in atTop, Passes ts (list (read n)) l r := by
  rw [iff_rule] at hs
  simp only [accepted, documented, iff_append, iff_kind] at hs
  obtain ⟨_, ⟨m, ⟨t, ht, rfl⟩, hs⟩, u, hu, rfl⟩ := hs
  have hhalt : haltKind u.kind = true := by rw [hu]; decide
  have hcomma : u.kind ≠ .comma := by rw [hu]; decide
  rw [length_cons] at hl
  rcases iff_opt.1 hs with rfl | hs
  · exact .of_forall fun n => .start fun _ => .expectKind ht (.skipKind_then hu (.stop fun _ => .pure _))
  · obtain ⟨v, q, rfl, hv, -⟩ := (leads_logicExpr_starts.append) _ _ hs
    obtain ⟨m, hfirst, hmore⟩ := iff_append.1 hs
    obtain ⟨w, q', rfl, hw⟩ := (manyAfter_passes (fun _ _ => h.exactly) hmore hhalt hcomma).1
    have hlen := hfirst.suffix.length_le
    have hcycle : w.isKeyword "cycle" = false := by
      cases hc : w.isKeyword "cycle" with
      | false => rfl
      | true =>
        have := starts_of_halts hw
        rw [starts_of_word hc (by decide)] at this
        cases this
    filter_upwards [h.exactly hfirst ⟨w, q', rfl, hw⟩ (by omega),
      many_passes (fun _ _ => h.exactly) hmore hhalt hcomma (by omega)] with n hfirst hmany
    exact .start fun _ => .expectKind ht (.skipKind_else (kind_ne_of_starts hv (by decide) (by decide))
      (hfirst.bind fun _ => .isWord_else hcycle (hmany.bind fun _ => .expectKind hu (.stop fun _ => .pure _))))

theorem parenthesised_passes (hs : Spans (.kind .lparen ++ .rule .logicExpr ++ .kind .rparen) l r) (hl : l.length ≤ k) :
    ∀ᶠ n in atTop, Passes ts (parenthesised (read n)) l r := by
  simp only [iff_append, iff_kind] at hs
  obtain ⟨_, ⟨m, ⟨t, ht, rfl⟩, hs⟩, u, hu, rfl⟩ := hs
  filter_upwards [h.exactly hs (.of_kind (by rw [hu]; decide)) hl] with n hn
  exact .expectKind ht (hn.bind fun _ => .expectKind hu (.pure _))

theorem body_passes (hs : Spans (block ++ .word "end") l r) (hl : l.length ≤ k) :
    ∀ᶠ n in atTop, Passes ts (body (read n)) l r := by
  simp only [block, iff_append, iff_kind, iff_word] at hs
  obtain ⟨_, ⟨m, ⟨t, ht, rfl⟩, hs⟩, u, hu, rfl⟩ := hs
  filter_upwards [h.statements hs (.of_word hu (by decide)) hl] with n hn
  exact .skipKind_then ht (hn.bind fun _ => .expectWord hu (.pure _))

theorem body_reach (hs : Spans Ebnf.body l r) (hr : Tail e ss r) (hl : l.length < k) :
    Reach ts body l (Tail e ss) := by
  rcases iff_or.1 hs with hs | hs
  · exact .of_passes hr (h.body_passes hs (Nat.le_of_lt hl))
  · obtain ⟨t, q, rfl, ht, -⟩ := leads_statement _ _ hs
    refine (h.statement hs hr hl).imp (.of_forall fun n m hn => ?_)
    exact .skipKind_else (kind_ne_of_starts ht (by decide) (by decide)) hn

theorem alternatives_passes (hs : Spans (.opt (.rule .ifElif ||| .rule .ifElse)) l (u :: r))
    (hu : u.isKeyword "end" = true) (hl : l.length ≤ k) :
    Closing l ∧ ∀ᶠ n in atTop, ∀ fuel, Passes ts (alternatives (read n) (fuel + 2)) l (u :: r) := by
  have hend (n fuel : Nat) : Passes ts (alternatives (read n) (fuel + 1)) (u :: r) (u :: r) :=
    .skipWord_else (by rw [isKeyword_of_isKeyword hu]; decide) (.pure _)
  rw [iff_opt, iff_or, iff_rule, iff_rule] at hs
  simp only [accepted, block, iff_append, iff_kind, iff_word] at hs
  rcases hs with rfl | hs | hs
  · exact ⟨.of_word hu (by decide), .of_forall fun n fuel => hend n (fuel + 1)⟩
  · obtain ⟨_, ⟨_, ⟨q, ⟨_, ⟨t, ht, rfl⟩, w, hw, rfl⟩, hcondition⟩, c, hc, rfl⟩, m, ⟨v, hv, rfl⟩, hblock⟩ := hs
    have hlen := hcondition.suffix.length_le
    simp only [length_cons] at hl hlen
    refine ⟨.of_word ht (by decide), ?_⟩
    filter_upwards [h.exactly hcondition (.of_kind (by rw [hc]; decide)) (by omega),
      h.statements hblock (.of_word hu (by decide)) (by omega)] with n hlogic hstatements fuel
    exact .skipWord_then ht (.skipWord_then hw (hlogic.bind fun _ => .expectKind hc (.skipKind_then hv
      (hstatements.bind fun _ => (hend n fuel).bind fun _ => .pure _))))
  · obtain ⟨_, ⟨_, ⟨t, ht, rfl⟩, c, hc, rfl⟩, m, ⟨v, hv, rfl⟩, hblock⟩ := hs
    simp only [length_cons] at hl
    refine ⟨.of_word ht (by decide), ?_⟩
    filter_upwards [h.statements hblock (.of_word hu (by decide)) (by omega)] with n hstatements fuel
    exact .skipWord_then ht (.skipWord_else (isKeyword_of_kind (by rw [hc]; decide) _) (.expectKind hc
      (.skipKind_then hv (hstatements.bind fun _ => .pure _))))

theorem conditional_reach (hs : Spans (.rule .ifExpr) l r) (hr : Tail e ss r) (hl : l.length ≤ k) :
    Reach ts conditional l (Tail e ss) := by
  rw [iff_rule] at hs
  simp only [accepted, documented, block, iff_append, iff_kind, iff_word, iff_or] at hs
  obtain ⟨_, ⟨_, ⟨q, ⟨t, ht, rfl⟩, hcondition⟩, c, hc, rfl⟩, hbody⟩ := hs
  have hlen := hcondition.suffix.length_le
  simp only [length_cons] at hl hlen
  have hlogic := h.exactly hcondition (.of_kind (by rw [hc]; decide)) (by omega)
  rcases hbody with ⟨_, ⟨m, ⟨q, ⟨v, hv, rfl⟩, hblock⟩, hmore⟩, u, hu, rfl⟩ | hbody
  · have hlen' := hblock.suffix.length_le
    simp only [length_cons] at hlen
    obtain ⟨hclosing, halternatives⟩ := h.alternatives_passes hmore hu (by omega)
    refine .of_passes hr ?_
    filter_upwards [hlogic, h.statements hblock hclosing (by omega), halternatives] with n hlogic hstatements hmore
    refine .expectWord ht (hlogic.bind fun _ => .expectKind hc (.skipKind_then hv (hstatements.bind fun _ => .bound
      (.bind (fun hsuffix => ?_) fun _ => .expectWord hu (.pure _)))))
    have hpos := hsuffix.length_le
    obtain ⟨v, q, rfl, -⟩ := hclosing
    rw [length_cons] at hpos
    obtain ⟨fuel, hfuel⟩ : ∃ f, ts.length + 1 = f + 2 := ⟨ts.length - 1, by omega⟩
    rw [hfuel]
    exact hmore fuel hsuffix
  · obtain ⟨v, q, rfl, hv, -⟩ := leads_statement _ _ hbody
    refine (h.statement hbody hr (by omega)).imp ?_
    filter_upwards [hlogic] with n hlogic m hstatement
    exact .expectWord ht (hlogic.bind fun _ => .expectKind hc
      (.skipKind_else (kind_ne_of_starts hv (by decide) (by decide)) (hstatement.bind fun _ => .pure _)))

theorem cycle_reach (hs : Spans (.rule .loopExpr) l r) (hr : Tail e ss r) (hl : l.length ≤ k) :
    Reach ts cycle l (Tail e ss) := by
  rw [iff_rule] at hs
  simp only [accepted, iff_or, iff_append, iff_kind, iff_word] at hs
  rcases hs with hs | hs
  · obtain ⟨_, ⟨_, ⟨_, ⟨_, ⟨_, ⟨_, ⟨_, ⟨t, ht, rfl⟩, v, hv, rfl⟩, f, hf, rfl⟩, hfirst⟩, w, hw, rfl⟩, hlast⟩,
      c, hc, rfl⟩, hbody⟩ := hs
    have hlen := hfirst.suffix.length_le
    have hlen' := hlast.suffix.length_le
    simp only [length_cons] at hl hlen hlen'
    refine (h.body_reach hbody hr (by omega)).imp ?_
    filter_upwards [h.exactly hfirst (.of_word hw (by decide)) (by omega),
      h.exactly hlast (.of_kind (by rw [hc]; decide)) (by omega)] with n hfirst hlast m hbody
    exact .expectWord ht (.skipWord_else (isKeyword_of_kind (by rw [hv]; decide) _) (.bind (.identifier hv _) fun _ =>
      .expectWord hf (hfirst.bind fun _ => .expectWord hw (hlast.bind fun _ =>
        .skipWord_else (isKeyword_of_kind (by rw [hc]; decide) _) (.bind (.pure _) fun _ =>
          .expectKind hc (hbody.bind fun _ => .pure _))))))
  · obtain ⟨_, ⟨_, ⟨_, ⟨_, ⟨_, ⟨_, ⟨t, ht, rfl⟩, w, hw, rfl⟩, v, hv, rfl⟩, f, hf, rfl⟩, hitems⟩, c, hc, rfl⟩,
      hbody⟩ := hs
    have hlen := hitems.suffix.length_le
    simp only [length_cons] at hl hlen
    obtain ⟨_, hblock, hend⟩ := hbody
    have hbody := iff_append.2 ⟨_, hblock, iff_word.2 hend⟩
    obtain ⟨b, q, rfl, hb, -⟩ := Leads.append (.kind fun _ => id) _ _ hblock
    refine .of_passes hr ?_
    filter_upwards [h.exactly hitems (.of_kind (by rw [hc]; decide)) (by omega),
      h.body_passes hbody (by omega)] with n hitems hbody
    exact .expectWord ht (.skipWord_then hw (.bind (.identifier hv _) fun _ => .expectWord hf (hitems.bind fun _ =>
      .expectKind hc (.isKind_then hb (hbody.bind fun _ => .pure _)))))

variable {word : String}

theorem loop_reach {details : String} {f : Node → Node → Node}
    (hs : Spans (.word word ++ .rule .logicExpr ++ .kind .colon ++ Ebnf.body) l r) (hr : Tail e ss r)
    (hl : l.length ≤ k) :
    Reach ts (fun rec => do
      expectWord word details
      let condition ← rec .logic
      colon
      return f condition (← body rec)) l (Tail e ss) := by
  simp only [iff_append, iff_kind, iff_word] at hs
  obtain ⟨_, ⟨_, ⟨q, ⟨t, ht, rfl⟩, hcondition⟩, c, hc, rfl⟩, hbody⟩ := hs
  have hlen := hcondition.suffix.length_le
  simp only [length_cons] at hl hlen
  refine (h.body_reach hbody hr (by omega)).imp ?_
  filter_upwards [h.exactly hcondition (.of_kind (by rw [hc]; decide)) (by omega)] with n hlogic m hbody
  exact .expectWord ht (hlogic.bind fun _ => .expectKind hc (hbody.bind fun _ => .pure _))

omit h in
theorem parameters_passes (hs : Spans (row (.kind .identifier)) l (u :: r)) (hu : u.kind = .rparen) :
    Passes ts parameters l r := by
  rcases iff_opt.1 hs with rfl | hs
  · exact .isKind_else (by rw [hu]; decide) (.expectKind hu (.pure _))
  · obtain ⟨t, m, rfl, ht, -⟩ := Leads.append (.kind fun _ => id) _ _ hs
    have hitem (l r : List Token) (h : Spans (.kind .identifier) l r) (_ : Halting r)
        (_ : l.length < (t :: m).length + 1) :
        ∀ᶠ _ in (atTop : Filter Nat), Passes ts (identifier "Expected identifier") l r := by
      obtain ⟨v, hv, rfl⟩ := iff_kind.1 h
      exact .of_forall fun _ => .identifier hv _
    obtain ⟨_, hn⟩ := (commaSeparated_passes hitem hs (by rw [hu]; decide) (by rw [hu]; decide) (by omega)).exists
    exact .isKind_then ht (hn.bind fun _ => .expectKind hu (.pure _))

theorem functionDefinition_reach (hs : Spans (.rule .funcDef) l r) (hr : Tail e ss r) (hl : l.length ≤ k) :
    Reach ts functionDefinition l (Tail e ss) := by
  rw [iff_rule] at hs
  simp only [accepted, documented, iff_append, iff_kind, iff_word, iff_opt] at hs
  obtain ⟨_, ⟨_, ⟨_, ⟨q, ⟨_, ⟨p, ⟨t, ht, rfl⟩, hname⟩, a, ha, rfl⟩, hparams⟩, b, hb, rfl⟩, c, hc, rfl⟩, hbody⟩ := hs
  have hlen := hparams.suffix.length_le
  have hlen' : (a :: q).length ≤ p.length := by
    rcases hname with rfl | ⟨v, -, rfl⟩
    · exact Nat.le_refl _
    · exact Nat.le_succ _
  simp only [length_cons] at hl hlen hlen'
  refine (h.body_reach hbody hr (by omega)).imp (.of_forall fun n m hbody => ?_)
  have hrest (name : Option Token) : Passes ts (do
      expectKind .lparen "Expected '('"
      let params ← parameters
      colon
      return Node.define name params (← body (read n))) (a :: q) m :=
    .expectKind ha ((parameters_passes hparams hb).bind fun _ => .expectKind hc (hbody.bind fun _ => .pure _))
  refine .expectWord ht ?_
  rcases hname with rfl | ⟨v, hv, rfl⟩
  · exact .isKind_else (by rw [ha]; decide) (.bind (.pure _) hrest)
  · exact .isKind_then hv (.bind (.identifier hv _) fun _ => .bind (.pure _) hrest)

omit h in
theorem literal_passes (hk : t.kind ∈ [Kind.int, .float, .string, .identifier]) (rec : Recursion) :
    Passes ts (atom rec) (t :: l) l := by
  refine .token ?_
  simp only [mem_cons, not_mem_nil, or_false] at hk
  rcases hk with hk | hk | hk | hk <;> rw [hk] <;> exact .advance (.pure _)

omit h in
theorem truth_passes (hw : word ∈ ["true", "false"]) (ht : t.isKeyword word = true) (rec : Recursion) :
    Passes ts (atom rec) (t :: l) l := by
  refine .token ?_
  simp only [mem_cons, not_mem_nil, or_false] at hw
  rw [kind_of_isKeyword ht]
  simp only [isKeyword_of_isKeyword ht]
  rcases hw with rfl | rfl <;> exact .advance (.pure _)

omit h in
theorem atom_of_word {p : Recursion → Reading Node} {x : Ebnf} {K : List Token → Prop}
    (hp : (word, p) ∈ [("when", conditional), ("cycle", cycle), ("as long as", whileLoop), ("repeat while", repeatLoop),
      ("make function", functionDefinition)]) (hx : Leads (·.isKeyword word = true) x) (hs : Spans x l r)
    (h : Reach ts p l K) : Reach ts atom l K := by
  obtain ⟨t, q, rfl, ht, -⟩ := hx l r hs
  refine h.imp (.of_forall fun n m hn => .token ?_)
  rw [kind_of_isKeyword ht]
  simp only [isKeyword_of_isKeyword ht]
  simp only [mem_cons, not_mem_nil, or_false, Prod.mk.injEq] at hp
  rcases hp with ⟨rfl, rfl⟩ | ⟨rfl, rfl⟩ | ⟨rfl, rfl⟩ | ⟨rfl, rfl⟩ | ⟨rfl, rfl⟩ <;> exact hn

theorem atom_reach (hs : Spans (.rule .atom) l r) (hr : Tail e ss r) (hl : l.length ≤ k) :
    Reach ts atom l (Tail e ss) := by
  have literal {kind : Kind} (hk : kind ∈ [Kind.int, .float, .string, .identifier]) (hs : Spans (.kind kind) l r) :
      Reach ts atom l (Tail e ss) := by
    obtain ⟨t, rfl, rfl⟩ := iff_kind.1 hs
    exact .of_passes hr (.of_forall fun n => literal_passes hk _)
  have truth {word : String} (hw : word ∈ ["true", "false"]) (hs : Spans (.word word) l r) :
      Reach ts atom l (Tail e ss) := by
    obtain ⟨t, ht, rfl⟩ := iff_word.1 hs
    exact .of_passes hr (.of_forall fun n => truth_passes hw ht _)
  have word {w : String} : Leads (·.isKeyword w = true) (.word w) := .word fun _ => id
  rw [iff_rule] at hs
  simp only [accepted, documented, iff_or] at hs
  rcases hs with (((((((((((hs | hs) | hs) | hs) | hs) | hs) | hs) | hs) | hs) | hs) | hs) | hs) | hs
  · exact literal (by decide) hs
  · exact literal (by decide) hs
  · exact literal (by decide) hs
  · exact literal (by decide) hs
  · exact truth (by decide) hs
  · exact truth (by decide) hs
  · obtain ⟨t, q, rfl, ht, -⟩ := Leads.append (.append (.kind fun _ => id)) _ _ hs
    refine .of_passes hr ?_
    filter_upwards [h.parenthesised_passes hs hl] with n hn
    refine .token ?_
    rw [ht]
    exact hn
  · obtain ⟨t, q, rfl, ht, -⟩ := Leads.rule (.append (.append (.kind fun _ => id))) _ _ hs
    refine .of_passes hr ?_
    filter_upwards [h.list_passes hs hl] with n hn
    refine .token ?_
    rw [ht]
    exact hn
  · exact atom_of_word (by simp) (.rule (.append (.append (.append word)))) hs (h.conditional_reach hs hr hl)
  · have cycle {x y : Ebnf} : Leads (·.isKeyword "cycle" = true) (.word "cycle" ++ x ++ y) := .append (.append word)
    exact atom_of_word (by simp) (.rule (.or (.append (.append (.append (.append (.append cycle)))))
      (.append (.append (.append (.append cycle)))))) hs (h.cycle_reach hs hr hl)
  · exact atom_of_word (p := whileLoop) (by simp) (.rule (.append (.append (.append word)))) hs
      (h.loop_reach (iff_rule.1 hs) hr hl)
  · exact atom_of_word (p := repeatLoop) (by simp) (.rule (.append (.append (.append word)))) hs
      (h.loop_reach (f := fun c b => .repeatWhile b c) (iff_rule.1 hs) hr hl)
  · exact atom_of_word (by simp) (.rule (.append (.append (.append (.append (.append (.append word))))))) hs
      (h.functionDefinition_reach hs hr hl)

end Ready

end Utterance.Grammar

import Utterance.Proofs.Window

/-!
# The rules at two places

Each rule is copied through a window as soon as the parts below it are (`Copying`). An expression is followed by a
token that the rule asks for, and `A` holds there.
-/

namespace Utterance.Grammar

open Reading

open Token (Kind)

variable {closing k : Kind} {details word : String} {i : Nat} {t : Token}

namespace Window

variable {W : Window} {α β : Type} {m j : Nat}

variable {δ γ : Type} {g : Unit → Reading β} {f : Position → β} {p q : Reading α} {R : α → α → Prop}
  {S : γ → δ → Prop} {l n : Nat}

/-- Where a block may end: at a token inside the window that goes on with nothing. -/
def Stops (W : Window) (j : Nat) : Prop := ∃ t, W.left.At j t ∧ halts t = true ∧ t.kind ≠ .eof

theorem Stops.lt (h : W.Stops j) : j < W.len := by
  obtain ⟨t, ht, -, hk⟩ := h
  exact W.lt ht hk

/-- The parts below a rule are copied: expressions and statements if `A` holds where they end, operands if `T` does.
Expressions may end where a clause of a comprehension follows, and at every token that goes on with nothing. -/
structure Copying (W : Window) (rec : Recursion) (A T : Nat → Prop) : Prop where
  logic : W.Copies Same A (rec .logic) (rec .logic)
  statement : W.Copies Same A (rec .statement) (rec .statement)
  statements : W.Copies Same W.Stops (rec .statements) (rec .statements)
  factor : W.Copies Same T (rec .factor) (rec .factor)
  halt : ∀ j t, W.left.At j t → halts t = true → A j
  clause : ∀ j t u v, W.left.At j t → t.isKeyword "cycle" = true → W.left.At (j + 1) u → u.kind = .identifier →
    W.left.At (j + 2) v → v.isKeyword "in" = true → A j
  /-- No statement begins at the end. -/
  ended : ∀ v j, rec .statement W.left W.len ≠ .ok v j

theorem span_any {s s' : Span} : s.Alike AnyPlace s' := ⟨trivial, trivial⟩

section

variable {K : Nat → Prop} {v : β}

theorem stops_of_isKeyword (ht : W.left.At m t) (hk : t.isKeyword word = true)
    (hw : haltWord word = true) : W.Stops m :=
  ⟨t, ht, halts_of_word hk hw, by rw [kind_of_isKeyword hk]; decide⟩

theorem stops_of_word (hw : haltWord word = true)
    (h : (expectWord word details >>= g) W.left m = .ok v j) : W.Stops m := by
  obtain ⟨_, _, h, -⟩ := bind_elim h
  obtain ⟨-, t, ht, hk⟩ := expectWord_elim h
  exact stops_of_isKeyword ht hk hw

theorem stops_of_kind (ht : W.left.At m t) (hk : t.kind = k) (hh : haltKind k = true) (he : k ≠ .eof) : W.Stops m :=
  ⟨t, ht, halts_of_kind (by rw [hk]; exact hh), by rw [hk]; exact he⟩

theorem stops_of_newlines {f : Nat → Reading β} (hf : f 0 W.left m = .ok v j → W.Stops m)
    (h : (newlines >>= f) W.left m = .ok v j) : W.Stops m := by
  obtain ⟨c, k, hc, h'⟩ := bind_elim h
  rcases newlines_elim hc with ⟨rfl, rfl⟩ | ⟨⟨t, ht, hk⟩, -⟩
  · exact hf h'
  · exact stops_of_kind ht hk (by decide) (by decide)

theorem stops_of_skipWord {p q : Reading β} (hw : haltWord word = true) (hq : q W.left m = .ok v j → W.Stops m)
    (h : (skipWord word >>= fun b => if b then p else q) W.left m = .ok v j) : W.Stops m := by
  obtain ⟨b, k, hb, h⟩ := bind_elim h
  obtain ⟨t, ht, rfl, rfl⟩ := skipWord_elim hb
  split at h
  · next hk => exact stops_of_isKeyword ht hk hw
  · exact hq h

theorem stops_of_last {d : α} {g : α → Unit → Reading β} (hw : haltWord word = true)
    (h : (Pure.pure d >>= fun d => newlines >>= fun _ => expectWord word details >>= g d) W.left m = .ok v j) :
    W.Stops m := by
  obtain ⟨_, _, hd, h⟩ := bind_elim h
  cases hd
  exact stops_of_newlines (stops_of_word hw) h

theorem after_many {more : Reading Bool} {sep : Token → Bool} (hs : Skips more sep) {item : Reading α}
    {f : List α → Reading β}
    (hsep : ∀ t x k, W.left.At m t → sep t = true → item W.left (m + 1) = .ok x k → K m)
    (hf : ∀ xs, f xs W.left m = .ok v j → K m) (h : (many more item >>= f) W.left m = .ok v j) : K m := by
  obtain ⟨xs, k, hxs, h'⟩ := bind_elim h
  rcases many_elim hs hxs with rfl | ⟨t, x, k, ht, hsep', hx⟩
  · exact hf xs h'
  · exact hsep t x k ht hsep' hx

theorem eq_of_start (h : (start >>= fun p => pure (f p)) W.left m = .ok v j) : j = m := by
  obtain ⟨p, k, hp, h⟩ := bind_elim h
  obtain ⟨p', hp'⟩ := start_eq W.left m
  cases hp'.symm.trans hp
  cases h
  rfl

theorem eq_of_stop (h : (stop >>= fun p => pure (f p)) W.left m = .ok v j) : j = m := by
  obtain ⟨p, k, hp, h⟩ := bind_elim h
  obtain ⟨p', hp'⟩ := stop_eq W.left m
  cases hp'.symm.trans hp
  cases h
  rfl

theorem eq_of_pure {a : β} (h : (pure a : Reading β) W.left m = .ok v j) : j = m := by
  cases h
  rfl

end

namespace Copying

variable {rec : Recursion} {A T K : Nat → Prop} (C : Copying W rec A T)

include C

variable {v : β}

theorem at_kind (hk : haltKind k = true) (h : (expectKind k details >>= g) W.left m = .ok v j) : A m := by
  obtain ⟨_, _, h, -⟩ := bind_elim h
  obtain ⟨-, t, ht, rfl⟩ := expectKind_elim h
  exact C.halt m t ht (halts_of_kind hk)

theorem at_word (hw : haltWord word = true) (h : (expectWord word details >>= g) W.left m = .ok v j) : A m := by
  obtain ⟨_, _, h, -⟩ := bind_elim h
  obtain ⟨-, t, ht, hk⟩ := expectWord_elim h
  exact C.halt m t ht (halts_of_word hk hw)

theorem at_stop (h : W.Stops m) : A m := by
  obtain ⟨t, ht, hh, -⟩ := h
  exact C.halt m t ht hh

theorem not_ended {f : Node → Reading β} (h : (rec .statement >>= f) W.left W.len = .ok v j) : False := by
  obtain ⟨_, _, h, -⟩ := bind_elim h
  exact C.ended _ _ h

theorem at_comma (ht : W.left.At m t) (hk : t.kind = .comma) : A m :=
  C.halt m t ht (halts_of_kind (by rw [hk]; decide))

theorem upToKind {f : α → Reading γ}
    {g : α → Reading δ} (h : W.CopiesFrom l R A p q) (hk : haltKind k = true) (he : (k == .eof) = false)
    (hf : ∀ a b, R a b → W.CopiesFrom l S K (f a) (g b)) : W.CopiesFrom l S K
      (p >>= fun a => expectKind k details >>= fun _ => f a) (q >>= fun b => expectKind k details >>= fun _ => g b) :=
  h.bind (fun _ _ _ _ h _ => C.at_kind hk h) fun a b hab => .kind he (hf a b hab)

theorem upToWord {f : α → Reading γ}
    {g : α → Reading δ} (h : W.Copies R A p q) (hw : haltWord word = true)
    (hf : ∀ a b, R a b → W.Copies S K (f a) (g b)) : W.Copies S K
      (p >>= fun a => expectWord word details >>= fun _ => f a)
        (q >>= fun b => expectWord word details >>= fun _ => g b) :=
  h.bind (fun _ _ _ _ h _ => C.at_word hw h) fun a b hab => .word (hf a b hab)

theorem bracketed (hc : closing ≠ .newline ∧ closing ≠ .eof) (hh : haltKind closing = true) (details : String) :
    W.Copies (List.Forall₂ Same) K (bracketed rec closing details) (bracketed rec closing details) :=
  .choose (copies_skipKind hc) (.pure .nil) (C.upToKind (C.logic.commaSeparated fun _ _ => C.at_comma) hh
    (beq_false_of_ne hc.2) fun _ _ hall => .pure hall)

theorem collection {opening : Kind} {expected : String} {make : Span → List Node → Node}
    (ho : (opening == .eof) = false)
    (hc : closing ≠ .newline ∧ closing ≠ .eof) (hh : haltKind closing = true)
    (hmake : ∀ s s' ns ns', List.Forall₂ Same ns ns' → Same (make s ns) (make s' ns')) :
    W.Copies Same K (collection rec opening closing expected details make)
      (collection rec opening closing expected details make) :=
  .start fun _ _ => .kind ho <|
    (C.bracketed hc hh _).then fun _ _ hall => .stop fun _ _ => .pure (hmake _ _ _ _ hall)

theorem clause_ : W.Copies (Node.ClauseAlike AnyPlace) A (Grammar.clause rec) (Grammar.clause rec) := by
  have hs := skips_word "where"
  have hsep : ∀ i t, W.left.At i t → t.isKeyword "where" = true → A i :=
    fun i t ht hk => C.halt i t ht (halts_of_word hk (by decide))
  refine .name fun _ _ hname => .word <|
    C.logic.bind ?_ fun _ _ hitems => (C.logic.many hs fun i t _ _ ht hk _ => hsep i t ht hk).bind ?_ fun _ _ hall =>
      .pure (.mk hname hitems hall)
  · intro _ m v j h hj
    refine after_many hs (fun t _ _ ht hk _ => hsep m t ht hk) (fun _ h => ?_) h
    exact eq_of_pure h ▸ hj
  · exact fun _ _ _ _ h hj => eq_of_pure h ▸ hj

theorem at_clause {c : Clause} {k : Nat} (ht : W.left.At m t) (hk : t.isKeyword "cycle" = true)
    (hc : Grammar.clause rec W.left (m + 1) = .ok c k) : A m := by
  obtain ⟨u, _, hu, hc⟩ := bind_elim hc
  obtain ⟨rfl, hu, hku⟩ := identifier_elim hu
  obtain ⟨_, _, hw, -⟩ := bind_elim hc
  obtain ⟨-, v, hv, hkv⟩ := expectWord_elim hw
  exact C.clause m t u v ht hk hu hku hv hkv

theorem at_clauses {f : List Clause → Reading β}
    (hf : ∀ cs, f cs W.left m = .ok v j → A m)
    (h : (many (skipWord "cycle") (Grammar.clause rec) >>= f) W.left m = .ok v j) : A m :=
  after_many (skips_word "cycle") (fun _ _ _ => C.at_clause) hf h

theorem at_items {f : List Node → Reading β} (hf : ∀ ns, f ns W.left m = .ok v j → A m)
    (h : (many (skipKind .comma) (rec .logic) >>= f) W.left m = .ok v j) : A m :=
  after_many (skips_kind (by decide)) (fun _ _ _ ht hk _ => C.at_comma ht (eq_of_beq hk)) hf h

theorem list : W.Copies Same K (list rec) (list rec) := by
  refine .start fun _ _ => .kind rfl <| .choose (copies_skipKind (by decide))
    (.stop fun _ _ => .pure (.list span_any .nil)) (C.logic.bind ?_ fun _ _ hfirst => .choose (copies_isWord _) ?_ ?_)
  · intro _ m v j h _
    obtain ⟨b, _, hb, h⟩ := bind_elim h
    obtain ⟨rfl, t, ht, rfl⟩ := isWord_elim hb
    split at h
    · exact C.at_clauses (fun _ h => C.at_kind rfl h) h
    · exact C.at_items (fun _ h => C.at_kind rfl h) h
  · exact C.upToKind (C.clause_.many (skips_word _) fun _ _ _ _ => C.at_clause) rfl rfl fun _ _ hall =>
      .stop fun _ _ => .pure (.comprehension span_any hfirst hall)
  · exact C.upToKind (C.logic.many (skips_kind (by decide)) fun _ _ _ _ ht hk _ => C.at_comma ht (eq_of_beq hk)) rfl rfl
      fun _ _ hall => .stop fun _ _ => .pure (.list span_any (.cons hfirst hall))

theorem pair : W.Copies (Node.PairAlike AnyPlace) A (pair rec) (pair rec) :=
  C.upToKind C.logic rfl rfl fun _ _ hk => C.logic.map fun _ _ hv => .mk hk hv

theorem dict : W.Copies Same K (dict rec) (dict rec) :=
  .start fun _ _ => .kind rfl <| .choose (copies_skipKind (by decide)) (.stop fun _ _ => .pure (.dict span_any .nil))
    (C.upToKind (C.pair.commaSeparated fun _ _ => C.at_comma) rfl rfl fun _ _ hall =>
      .stop fun _ _ => .pure (.dict span_any hall))

theorem parenthesised : W.Copies Same K (parenthesised rec) (parenthesised rec) :=
  .kind rfl <| C.upToKind C.logic rfl rfl fun _ _ hn => .pure hn

theorem lambda : W.Copies Same A (lambda rec) (lambda rec) := by
  have rest {first first' : Position} {ps ps' : List Token} (hps : List.Forall₂ (Token.Alike AnyPlace) ps ps') :
      W.Copies Same A
        (do
          expectKind .arrow "Expected '=>'"
          let body ← rec .logic
          return .lambda ⟨first, ← stop⟩ ps body)
        (do
          expectKind .arrow "Expected '=>'"
          let body ← rec .logic
          return .lambda ⟨first', ← stop⟩ ps' body) :=
    .kind rfl <| C.logic.bind (fun _ _ _ _ h hj => eq_of_stop h ▸ hj)
      fun _ _ hb => .stop fun _ _ => .pure (.lambda span_any hps hb)
  exact .start fun _ _ => .word <| .choose (copies_isKind (by decide))
    (((copies_identifier _).commaSeparated fun _ _ _ _ => trivial).then fun _ _ hps => rest hps)
    ((CopiesFrom.pure .nil).then fun _ _ hps => rest hps)

theorem body : W.Copies Same A (body rec) (body rec) := by
  refine .ofNewline (fun b => .ite ?_ C.statement) fun v j h _ => C.ended v j h
  exact C.statements.bind (fun _ _ _ _ h _ => stops_of_word rfl h) fun _ _ hb => .word <| .pure hb

/-- What `alternatives` reads: cases, and a block for all others. -/
abbrev ChoicesAlike (c c' : List Case × Option (Node × Bool)) : Prop :=
  List.Forall₂ (Node.CaseAlike AnyPlace) c.1 c'.1 ∧ Option.Rel (Node.BodyAlike AnyPlace) c.2 c'.2

omit C in
theorem alternatives_elim {v} (h : alternatives rec n W.left m = .ok v j) (hj : W.Stops j) : W.Stops m := by
  cases n with
  | zero =>
    cases h
    exact hj
  | succ n =>
    refine stops_of_skipWord rfl (fun h => ?_) h
    cases h
    exact hj

theorem alternatives_from {n' : Nat} (hn : W.len < l + n) (hn' : W.len < l + n') :
    W.CopiesFrom l ChoicesAlike W.Stops (alternatives rec n) (alternatives rec n') := by
  induction n generalizing n' l with
  | zero => exact fun i hl hi => absurd hi (by omega)
  | succ n ih =>
    cases n' with
    | zero => exact fun i hl hi => absurd hi (by omega)
    | succ n' =>
      intro i hl
      refine (copies_skipWord _ i (Nat.zero_le i)).bind (fun _ _ _ _ _ _ _ => trivial) ?_
      rintro b _ m hb - rfl
      obtain ⟨t, ht, hbt, hm⟩ := skipWord_elim hb
      cases b with
      | false => exact CopiesFrom.pure ⟨.nil, .none⟩ m (Nat.le_refl m)
      | true =>
        rw [if_pos rfl] at hm
        have more : W.CopiesFrom (i + 1) ChoicesAlike W.Stops (alternatives rec n) (alternatives rec n') :=
          ih (by omega) (by omega)
        have hend : ∀ v j, alternatives rec n W.left W.len = .ok v j → ¬W.Stops j := fun v j h hj =>
          absurd (alternatives_elim h hj).lt (Nat.lt_irrefl _)
        refine (.choose (copies_skipWord _) ?_ ?_ : W.CopiesFrom (i + 1) ChoicesAlike W.Stops _ _) m (by omega)
        · refine C.upToKind C.logic.later rfl rfl fun _ _ hc => .ofNewline (fun b => .ite ?_ more) hend
          refine C.statements.later.bind (fun _ m v j h hj => ?_) fun _ _ hb =>
            more.map fun _ _ hm => ⟨.cons (.mk _ hc hb) hm.1, hm.2⟩
          obtain ⟨c, k, hc, h⟩ := bind_elim h
          cases h
          exact alternatives_elim hc hj
        · refine .kind rfl <| .ofNewline (fun b => .ite ?_ (.pure ⟨.nil, .none⟩)) fun v j h hj => ?_
          · exact C.statements.later.map fun _ _ hb => ⟨.nil, .some (.mk _ hb)⟩
          · cases h
            exact absurd hj.lt (Nat.lt_irrefl _)

theorem conditional : W.Copies Same A (conditional rec) (conditional rec) := by
  refine .word <| C.upToKind C.logic rfl rfl fun _ _ hc => .ofNewline (fun b => .ite ?_ ?_) fun v j h _ => C.not_ended h
  · refine C.statements.bind (fun _ m v j h hj => ?_) fun _ _ hb => .ofBound fun n n' hn hn' =>
      (C.alternatives_from (by omega) (by omega)).bind (fun _ _ _ _ h _ => stops_of_word rfl h) fun _ _ hm =>
        .word <| .pure (.conditional span_any (.cons (.mk _ hc hb) hm.1) hm.2)
    obtain ⟨n, k, hn, h⟩ := bind_elim h
    cases hn
    obtain ⟨c, k, hc, h⟩ := bind_elim h
    exact alternatives_elim hc (stops_of_word rfl h)
  · exact C.statement.map fun _ _ hb => .conditional span_any (.cons (.mk _ hc hb) .nil) .none

theorem counting : W.Copies Same A (counting rec) (counting rec) := by
  have rest {name name' : Token} {first first' last last' : Node} {step step' : Option Node}
      (hn : name.Alike AnyPlace name') (hf : Same first first') (hl : Same last last')
      (hs : Option.Rel Same step step') :
      W.Copies Same A (do colon; return .countTo name first last step (← Grammar.body rec))
        (do colon; return .countTo name' first' last' step' (← Grammar.body rec)) :=
    .kind rfl <| C.body.map fun _ _ hb => .count span_any hn hf hl hs hb
  refine .name fun _ _ hn => .word <| C.upToWord C.logic rfl fun _ _ hf => C.logic.bind ?_ fun _ _ hl =>
    .choose (copies_skipWord _) ?_ ((CopiesFrom.pure .none).then fun _ _ hs => rest hn hf hl hs)
  · intro _ m v j h _
    obtain ⟨b, k, hb, h⟩ := bind_elim h
    obtain ⟨t, ht, rfl, rfl⟩ := skipWord_elim hb
    split at h
    · next hk => exact C.halt m t ht (halts_of_word hk (by decide))
    · obtain ⟨_, _, hn, h⟩ := bind_elim h
      cases hn
      exact C.at_kind rfl h
  · refine C.logic.bind (fun _ _ _ _ h _ => ?_) fun _ _ hs => (CopiesFrom.pure (.some hs)).then fun _ _ hs =>
      rest hn hf hl hs
    obtain ⟨_, _, hn, h⟩ := bind_elim h
    cases hn
    exact C.at_kind rfl h

theorem cycle : W.Copies Same A (cycle rec) (cycle rec) := by
  refine .word <| .choose (copies_skipWord _) (.name fun _ _ hn => .word <| C.upToKind C.logic rfl rfl fun _ _ hi i _ =>
    (copies_isNewline i (Nat.zero_le i)).bind (fun b m v j hb h _ => ?_) ?_) C.counting
  · obtain ⟨rfl, t, ht, rfl⟩ := isKind_elim hb
    split at h
    · next hk => exact W.lt_of_kind ht (eq_of_beq hk) (by decide)
    · obtain ⟨u, _, hu, -⟩ := bind_elim h
      obtain ⟨-, hu, hk⟩ := identifier_elim hu
      exact W.lt_of_kind hu hk (by decide)
  · rintro b _ m - - rfl
    exact (CopiesFrom.ite (C.body.map fun _ _ hb => .each span_any hn hi hb) C.counting : W.Copies Same A _ _) m
      (Nat.zero_le m)

theorem whileLoop : W.Copies Same A (whileLoop rec) (whileLoop rec) :=
  .word <| C.upToKind C.logic rfl rfl fun _ _ hc => C.body.map fun _ _ hb => .loop span_any hc hb

theorem repeatLoop : W.Copies Same A (repeatLoop rec) (repeatLoop rec) :=
  .word <| C.upToKind C.logic rfl rfl fun _ _ hc => C.body.map fun _ _ hb => .repetition span_any hb hc

omit C in
theorem parameters : W.Copies (List.Forall₂ (Token.Alike AnyPlace)) K parameters parameters :=
  .choose (copies_isKind (by decide)) (((copies_identifier _).commaSeparated fun _ _ _ _ => trivial).then fun _ _ hps =>
    .kind rfl <| .pure hps) (.kind rfl <| .pure .nil)

theorem functionDefinition : W.Copies Same A (functionDefinition rec) (functionDefinition rec) := by
  have rest {name name' : Option Token} (hn : Option.Rel (Token.Alike AnyPlace) name name') :
      W.Copies Same A
        (do
          expectKind .lparen "Expected '('"
          let params ← Grammar.parameters
          colon
          return .define name params (← Grammar.body rec))
        (do
          expectKind .lparen "Expected '('"
          let params ← Grammar.parameters
          colon
          return .define name' params (← Grammar.body rec)) :=
    .kind rfl <| parameters.then fun _ _ hps => .kind rfl <| C.body.map fun _ _ hb => .function span_any hn hps hb
  exact .word <| .choose (copies_isKind (by decide))
    (.name fun _ _ ht => (CopiesFrom.pure (.some ht)).then fun _ _ hn => rest hn)
    ((CopiesFrom.pure .none).then fun _ _ hn => rest hn)

omit C in
theorem handlerName : W.Copies (Option.Rel (Token.Alike AnyPlace)) K handlerName handlerName :=
  .choose (copies_skipWord _) (.name fun _ _ ht => .pure (.some ht)) (.pure .none)

theorem attemptHandle : W.Copies Same A (attemptHandle rec) (attemptHandle rec) := by
  refine .word <| .kind rfl <| .ofNewline (fun b => .ite ?_ ?_) fun v j h _ => C.not_ended h
  · exact C.statements.bind (fun _ _ _ _ h _ => stops_of_word rfl h) fun _ _ hb => .word <|
      copies_newlines.bind (fun _ _ _ _ h _ => (stops_of_word rfl h).lt) fun _ _ _ => .word <| handlerName.then
        fun _ _ hn => .kind rfl <| C.body.map fun _ _ hh => .attempt span_any hb hh hn
  · exact C.upToWord C.statement rfl fun _ _ hb => handlerName.then fun _ _ hn => .kind rfl <|
      C.statement.map fun _ _ hh => .attempt span_any hb hh hn

theorem caseBody : W.Copies (Node.BodyAlike AnyPlace) W.Stops (caseBody rec) (caseBody rec) := by
  refine .ofNewline (fun b => .ite ?_ ?_) fun v j h _ => C.not_ended h
  · exact C.statements.map fun _ _ hb => .mk _ hb
  · refine C.statement.bind (fun _ m v j h hj => ?_) fun _ _ hs => .ofNewline (fun b => .pure (.mk _ hs)) ?_
    · obtain ⟨b, k, hb, h⟩ := bind_elim h
      obtain ⟨t, ht, rfl, rfl⟩ := skipKind_elim hb
      cases h
      split at hj
      · next hk => exact C.halt m t ht (halts_of_kind (by rw [eq_of_beq hk]; decide))
      · exact C.at_stop hj
    · intro v j h hj
      cases h
      exact absurd hj.lt (Nat.lt_irrefl _)

theorem caseClause : W.Copies (Node.CaseAlike AnyPlace) W.Stops (caseClause rec) (caseClause rec) := by
  refine C.upToKind C.logic rfl rfl fun _ _ hv => C.caseBody.bind (fun c m v j h hj => ?_) ?_
  · obtain ⟨chosen, block⟩ := c
    refine stops_of_newlines (f := fun _ => Pure.pure (_, chosen, block)) (fun h => ?_) h
    exact eq_of_pure h ▸ hj
  · rintro _ _ ⟨b, hb⟩
    exact copies_newlines.bind (fun _ _ _ _ h hj => (eq_of_pure h ▸ hj : W.Stops _).lt) fun _ _ _ =>
      .pure (.mk _ hv hb)

theorem switch : W.Copies Same A (switch rec) (switch rec) := by
  have last {subject subject' : Node} {cs cs' : List Case} {default default' : Option (Node × Bool)}
      (hs : Same subject subject') (hcs : List.Forall₂ (Node.CaseAlike AnyPlace) cs cs')
      (hd : Option.Rel (Node.BodyAlike AnyPlace) default default') :
      W.Copies Same A
        (do
          let _ ← newlines
          expectWord "end" "Expected 'whether', 'default', or 'end'"
          return .select subject cs default)
        (do
          let _ ← newlines
          expectWord "end" "Expected 'whether', 'default', or 'end'"
          return .select subject' cs' default') :=
    copies_newlines.bind (fun _ _ _ _ h _ => (stops_of_word rfl h).lt) fun _ _ _ =>
      .word <| .pure (.switch span_any hs hcs hd)
  have hwhether : ∀ i t, W.left.At i t → t.isKeyword "whether" = true → W.Stops i :=
    fun i t ht hk => stops_of_isKeyword ht hk rfl
  -- whatever comes after the cases goes on with nothing
  refine .word <| C.upToKind C.logic rfl rfl fun _ _ hs => .kind rfl <| copies_newlines.bind (fun _ m v j h _ => ?_)
    fun _ _ _ => (C.caseClause.many (skips_word _) fun i t _ _ ht hk _ => hwhether i t ht hk).bind
      (fun _ _ _ _ h _ => stops_of_skipWord rfl (stops_of_last rfl) h) fun _ _ hcs => .choose (copies_skipWord _) ?_ ?_
  · exact (after_many (skips_word _) (fun t _ _ ht hk _ => hwhether m t ht hk)
      (fun _ => stops_of_skipWord rfl (stops_of_last rfl)) h).lt
  · exact .kind rfl <| C.caseBody.bind (fun _ _ _ _ h _ => stops_of_last rfl h) fun _ _ hd =>
      (CopiesFrom.pure (.some hd)).then fun _ _ hd => last hs hcs hd
  · exact (CopiesFrom.pure .none).then fun _ _ hd => last hs hcs hd

theorem putIn : W.Copies Same A (putIn rec) (putIn rec) :=
  C.upToWord C.logic rfl fun _ _ hv => .name fun _ _ hn => .choose (copies_skipKind (by decide))
    (C.logic.map fun _ _ _ => .assign span_any hn hv) (.pure (.assign span_any hn hv))

theorem keepAs : W.Copies Same A (keepAs rec) (keepAs rec) :=
  C.upToWord C.logic rfl fun _ _ hv => .name fun _ _ hn => .pure (.constant span_any hn hv)

theorem showing : W.Copies Same A (showing rec) (showing rec) := by
  refine C.logic.bind (fun _ m v j h hj => ?_) fun _ _ hv => .start fun _ _ => .stop fun _ _ =>
    .pure (.apply span_any (.named span_any ⟨rfl, rfl, trivial, trivial⟩) (.cons hv .nil))
  obtain ⟨p, k, hp, h⟩ := bind_elim h
  obtain ⟨p', hp'⟩ := start_eq W.left m
  cases hp'.symm.trans hp
  exact eq_of_stop h ▸ hj

theorem expression : W.Copies Same A (expression rec) (expression rec) :=
  .choose (copies_skipWord _) C.putIn (.choose (copies_skipWord _) C.keepAs
    (.choose (copies_skipWord _) C.showing C.logic))

omit C in
theorem modulePath : W.Copies (Token.Alike AnyPlace) K modulePath modulePath := by
  refine .name fun _ _ hf => ((copies_identifier _).many (skips_kind (by decide))
    fun _ _ _ _ _ _ _ => trivial).then fun _ _ hm => .start fun _ _ => .pure ⟨rfl, ?_, trivial, trivial⟩
  show Scalar.text _ = Scalar.text _
  rw [Token.Alike.texts_eq (.cons hf hm)]

omit C in
theorem bringItem (details : String) : W.Copies (ItemAlike AnyPlace) K (bringItem details) (bringItem details) :=
  .name fun _ _ hn => .choose (copies_skipWord _) (.name fun _ _ ha => .pure ⟨hn, .some ha⟩) (.pure ⟨hn, .none⟩)

omit C in
theorem bringAt (ht : W.left.At i t) (hk : t.kind ≠ .eof) : W.CopiesAt Same K bring bring i := by
  refine copies_advance ht hk (.choose (copies_skipWord _) (modulePath.map fun _ _ hp => .bring span_any hp .none) ?_)
  exact (bringItem _).then fun _ _ hf => ((bringItem _).many (skips_kind (by decide)) fun _ _ _ _ _ _ _ => trivial).then
    fun _ _ hm => .word <| modulePath.map fun _ _ hp => .bring span_any hp (.some (.cons hf hm))

omit C in
theorem shareAt (ht : W.left.At i t) (hk : t.kind ≠ .eof) : W.CopiesAt Same K share share i := by
  refine (copies_start i (Nat.zero_le i)).bind (K := Free) (fun _ _ _ _ _ _ _ => trivial) fun p q m hp _ _ => ?_
  obtain ⟨p', hp'⟩ := start_eq W.left i
  cases hp'.symm.trans hp
  exact copies_advance ht hk (((copies_identifier _).commaSeparated fun _ _ _ _ => trivial).then fun _ _ hns =>
    .start fun _ _ => .pure (.share span_any hns))

theorem atom : W.Copies Same A (atom rec) (atom rec) := by
  refine fun m _ => .token fun t t' ht hnear => ?_
  by_cases hk : t.kind = .eof
  · -- no atom begins at the end
    intro hi v j hv _
    obtain ⟨d, hd⟩ := atom_fails ht (starts_of_halts (halts_of_kind (by rw [hk]; decide))) rec
    cases hd.symm.trans ((bind_ok (token_at ht)).trans hv)
  · have ha : t.Alike AnyPlace t' := hnear.resolve_right fun h => hk h.1
    have hword (word : String) : t'.isKeyword word = t.isKeyword word := hnear.isKeyword word
    simp only [← ha.kind, hword]
    have at_ {p q : Reading Node} (h : W.Copies Same A p q) : W.CopiesAt Same A p q m := h m (Nat.zero_le m)
    split
    case h_1 => exact copies_advance ht hk (.pure (.number span_any ha))
    case h_2 => exact copies_advance ht hk (.pure (.number span_any ha))
    case h_3 => exact copies_advance ht hk (.pure (.string span_any ha))
    case h_4 => exact copies_advance ht hk (.pure (.regex span_any ha))
    case h_5 => exact copies_advance ht hk (.pure (.named span_any ha))
    case h_6 => exact at_ C.parenthesised
    case h_7 => exact at_ C.list
    case h_8 => exact at_ (C.collection rfl (by decide) rfl fun _ _ _ _ h => .tuple span_any h)
    case h_9 => exact at_ C.dict
    case h_10 => exact at_ (C.collection rfl (by decide) rfl fun _ _ _ _ h => .set span_any h)
    case h_11 =>
      have literal (n : Int) : W.CopiesAt Same A
          (advance >>= fun _ => Pure.pure (.ofNumber ⟨.int, .int n, t.start, t.stop⟩))
          (advance >>= fun _ => Pure.pure (.ofNumber ⟨.int, .int n, t'.start, t'.stop⟩)) m :=
        copies_advance ht hk (.pure (.number span_any ⟨rfl, rfl, trivial, trivial⟩))
      refine .ite (literal 1) (.ite (literal 0) (.ite (at_ C.conditional) (.ite (at_ C.cycle) (.ite (at_ C.whileLoop)
        (.ite (at_ C.repeatLoop) (.ite (at_ C.functionDefinition) (.ite (at_ C.lambda) (.ite (at_ C.attemptHandle)
          (.ite (at_ C.switch) ?_)))))))))
      intro _ v j hv _
      obtain ⟨d, hd⟩ := refuse_at (α := Node) ht _
      cases hd.symm.trans hv

end Copying

end Window

end Utterance.Grammar

import Utterance.Proofs.Acceptance

/-!
# Everything that is read is copied

The rules that were left open are copied, too: operands with what belongs to them, operators, statements and blocks.
An operand may end where operators with their operands follow (`AcceptsOperand`), an expression or a statement where
it may end in both inputs (`Accepts`), a block at a token that goes on with nothing (`Stops`). By induction on the
bound of the depth, all parts are copied through a window (`read_copies`).
-/

namespace Utterance.Grammar

open Reading List

open Token (Kind)

namespace Window

variable {W : Window} {i j m n : Nat} {t : Token}

variable {p : Reading Node} {K : Nat → Prop} {fuel : Nat} {op : Token → Bool}

theorem CopiesFrom.ofWord {α : Type} {R : α → α → Prop} {word : String} {p q p' q' : Reading α}
    (h : ∀ i t, W.left.At i t → t.isKeyword word = true → W.CopiesAt R K p q i) (h' : W.Copies R K p' q') :
    W.Copies R K (isWord word >>= fun b => if b then p else p') (isWord word >>= fun b => if b then q else q') := by
  intro i hl
  refine (copies_isWord _ i hl).bind (K := Free) (fun _ _ _ _ _ _ _ => trivial) ?_
  rintro b _ m hb - rfl
  obtain ⟨rfl, t, ht, rfl⟩ := isWord_elim hb
  split
  · next hk => exact h m t ht hk
  · exact h' m (Nat.zero_le m)

theorem elements_of_reply {node v : Node} (hf : W.len < i + fuel)
    (h : elementsAfter (read n) fuel node W.left i = .ok v j) : W.Elements i j := by
  induction fuel generalizing node i with
  | zero =>
    obtain ⟨t, ht, he⟩ := W.beyond i (by omega)
    cases h
    exact .done ht (by rw [he]; decide)
  | succ fuel ih =>
    obtain ⟨b, k, hb, h⟩ := bind_elim h
    obtain ⟨t, ht, rfl, rfl⟩ := skipKind_elim hb
    split at h
    · next hk =>
      obtain ⟨key, k, hkey, h⟩ := bind_elim h
      have hle := le_of_ok hkey
      exact .more ht (eq_of_beq hk) ⟨n, key, hkey⟩ (ih (by omega) h)
    · next hk =>
      cases h
      exact .done ht (by simpa using hk)

variable (C : Copying W (read n) (W.Accepts n) (W.AcceptsOperand n))

include C

variable {fuel' : Nat}

theorem copies_elementsAfter {node node' : Node} (hf : W.len < i + fuel) (hf' : W.len < i + fuel')
    (hn : Same node node') :
    W.CopiesAt Same (W.AcceptsOperand n) (elementsAfter (read n) fuel node) (elementsAfter (read n) fuel' node') i := by
  induction fuel generalizing fuel' node node' i with
  | zero => exact fun hi => absurd hi (by omega)
  | succ fuel ih =>
    intro hi
    obtain ⟨fuel', rfl⟩ : ∃ f, fuel' = f + 1 := ⟨fuel' - 1, by omega⟩
    revert hi
    refine (copies_skipKind (by decide) i (Nat.zero_le i)).bind (K := Free) (fun _ _ _ _ _ _ _ => trivial) ?_
    rintro b _ m hb - rfl
    obtain ⟨t, -, -, rfl⟩ := skipKind_elim hb
    cases b with
    | false => exact CopiesFrom.pure hn _ (Nat.le_refl _)
    | true =>
      refine (C.atom (i + 1) (Nat.zero_le _)).bind (fun key m v j hkey h hj => ?_) fun key key' m hkey hm hsame => ?_
      · exact accepts_elements (elements_of_reply (by have := le_of_ok hkey; omega) h) hj
      · exact ih (by omega) (by omega) (.index span_any hn hsame)

section

variable (ih : ∀ m < n, W.Copies Same (W.Accepts m) (read m .logic) (read m .logic))
include ih

theorem copies_call : W.Copies Same (W.AcceptsOperand n) (call (read n)) (call (read n)) := by
  refine C.atom.bind (fun a m v j h hj => ?_) fun a b hab => .choose (copies_skipKind (by decide)) ?_ ?_
  · obtain ⟨b, k, hb, h⟩ := bind_elim h
    obtain ⟨t, ht, rfl, rfl⟩ := skipKind_elim hb
    split at h
    · next hk =>
      obtain ⟨args, k, hargs, h⟩ := bind_elim h
      cases h
      exact accepts_call ht (eq_of_beq hk) ⟨n, args, hargs⟩ hj ih
    · obtain ⟨fuel, k, hfuel, h⟩ := bind_elim h
      cases hfuel
      exact accepts_elements (elements_of_reply (by have := W.size; omega) h) hj
  · exact (C.bracketed (by decide) rfl _).map fun _ _ hall => .apply span_any hab hall
  · exact .ofBound fun _ _ hf hf' i _ => copies_elementsAfter C (by omega) (by omega) hab

theorem copies_factor : W.Copies Same (W.AcceptsOperand n) (factor (read n)) (factor (read n)) := by
  refine fun m _ => .token fun t t' ht hnear => ?_
  rw [hnear.kind_eq (k := .plus) (by decide), hnear.kind_eq (k := .minus) (by decide)]
  split
  · next hsign =>
    have hk : t.kind ≠ .eof := by
      intro hk
      rw [hk] at hsign
      cases hsign
    have ha : t.Alike AnyPlace t' := hnear.resolve_right fun h => hk h.1
    exact copies_advance ht hk (C.factor.map fun _ _ h => .unary span_any ha h)
  · exact copies_call C ih m (Nat.zero_le m)

end

omit C

/-- A level of expressions, with the bound `n` below it: it is copied where operands may end, and what it reads is an
operand with operators and their operands. -/
structure Layer (W : Window) (n : Nat) (p : Reading Node) : Prop where
  copies : W.Copies Same (W.AcceptsOperand n) p p
  first : ∀ i v j, p W.left i = .ok v j → ∃ k, W.Reads (fun rec => rec .factor) i k ∧ W.Operands k j

theorem Layer.operands (L : Layer W n p) (hop : ∀ t, op t = true → isOperator t = true) {left v : Node}
    (h : operatorsAfter p op fuel left W.left i = .ok v j) : W.Operands i j := by
  induction fuel generalizing left i with
  | zero =>
    cases h
    exact .done _
  | succ fuel ih =>
    obtain ⟨t, k, ht, hrest⟩ := bind_elim h
    obtain ⟨rfl, ht⟩ := token_elim ht
    clear h
    split at hrest
    · next ho =>
      obtain ⟨_, _, hadv, hrest⟩ := bind_elim hrest
      cases hadv
      obtain ⟨right, m, hright, h⟩ := bind_elim hrest
      obtain ⟨q, hq, hrest⟩ := L.first _ _ _ hright
      exact .more ht (hop t ho) hq (hrest.trans (ih h))
    · cases hrest
      exact .done _

theorem Layer.copies_after (L : Layer W n p) (hop : ∀ t, op t = true → isOperator t = true)
    (hnear : ∀ t t', Near t t' → op t' = op t)
    {left left' : Node} (hf : W.len < i + fuel) (hf' : W.len < i + fuel') (hl : Same left left') :
    W.CopiesAt Same (W.AcceptsOperand n) (operatorsAfter p op fuel left) (operatorsAfter p op fuel' left') i := by
  induction fuel generalizing fuel' left left' i with
  | zero => exact fun hi => absurd hi (by omega)
  | succ fuel ih =>
    intro hi
    obtain ⟨fuel', rfl⟩ : ∃ f, fuel' = f + 1 := ⟨fuel' - 1, by omega⟩
    revert hi
    refine CopiesAt.token fun t t' ht hn => ?_
    rw [hnear t t' hn]
    split
    · next ho =>
      have hk := ne_eof_of_isOperator (hop t ho)
      have ha : t.Alike AnyPlace t' := hn.resolve_right fun h => hk h.1
      -- the operand ends where more operators follow, or at the end of all
      have hright : W.CopiesFrom (i + 1) Same (W.AcceptsOperand n)
          (p >>= fun right => operatorsAfter p op fuel (.operation left t right))
          (p >>= fun right => operatorsAfter p op fuel' (.operation left' t' right)) := by
        intro k hk
        refine (L.copies k (Nat.zero_le k)).bind (fun _ _ _ _ _ h hj => .of_operands (L.operands hop h) hj)
          fun _ _ q _ hq hr => ?_
        exact ih (by omega) (by omega) (.binary span_any hl ha hr)
      intro hi v j hv hj
      obtain ⟨hle, hjl, v', hv', hR⟩ := hright (i + 1) (Nat.le_refl _) (W.lt ht hk) v j hv hj
      rw [Nat.add_right_comm] at hv'
      exact ⟨by omega, hjl, v', hv', hR⟩
    · exact CopiesFrom.pure hl i (Nat.le_refl i)

theorem Layer.operators (L : Layer W n p) (hop : ∀ t, op t = true → isOperator t = true)
    (hnear : ∀ t t', Near t t' → op t' = op t) :
    Layer W n (operators p op) where
  copies := by
    refine L.copies.bind (fun _ _ _ _ h hj => ?_) fun _ _ hl => .ofBound fun _ _ hf hf' i _ =>
      L.copies_after hop hnear (by omega) (by omega) hl
    obtain ⟨fuel, k, hfuel, h⟩ := bind_elim h
    cases hfuel
    exact .of_operands (L.operands hop h) hj
  first i v j h := by
    obtain ⟨left, m, hleft, h⟩ := bind_elim h
    obtain ⟨fuel, k, hfuel, h⟩ := bind_elim h
    cases hfuel
    obtain ⟨k, hk, hrest⟩ := L.first _ _ _ hleft
    exact ⟨k, hk, hrest.trans (L.operands hop h)⟩

theorem isOneOf_near {ks : List Kind} (h : ∀ k ∈ ks, k ≠ .newline ∧ k ≠ .eof) {t t' : Token} (ht : Near t t') :
    isOneOf ks t' = isOneOf ks t := by
  unfold isOneOf
  induction ks with
  | nil => rfl
  | cons k ks ih =>
    rw [contains_cons, contains_cons, ht.kind_eq (h k mem_cons_self),
      ih fun k hk => h k (mem_cons_of_mem _ hk)]

theorem Layer.kinds (L : Layer W n p) (ks : List Kind) (h : ∀ k ∈ ks, operatorKinds.contains k = true) :
    Layer W n (Grammar.operators p (isOneOf ks)) := by
  refine L.operators (fun t ht => ?_) fun t t' => isOneOf_near fun k hk => ?_
  · rw [isOneOf, contains_iff_mem] at ht
    simp only [isOperator, h _ ht, Bool.true_or]
  · have := h k hk
    constructor <;> rintro rfl <;> cases this

include C

theorem layer_comparison : Layer W n (comparison (read n)) := by
  have l : Layer W n (read n .factor) := ⟨C.factor, fun _ v j h => ⟨j, ⟨n, v, h⟩, .done j⟩⟩
  have l₁ := l.kinds [.mul, .div, .mod] (by decide)
  have l₂ := l₁.kinds [.plus, .minus] (by decide)
  have l₃ := l₂.kinds [.ampersand, .caret] (by decide)
  exact l₃.kinds [.ee, .ne, .lt, .gt, .lte, .gte] (by decide)

theorem copies_logic : W.Copies Same (W.Accepts n) (logic (read n)) (logic (read n)) := by
  have words (t : Token) (ht : (t.isKeyword "and" || t.isKeyword "or") = true) : isOperator t = true := by
    simp only [isOperator, Bool.or_assoc, ht, Bool.or_true]
  refine .ofWord (fun m t ht hnot => ?_) ?_
  · have hk : t.kind ≠ .eof := by
      rw [kind_of_isKeyword hnot]
      decide
    refine .token fun u u' hu hnear => ?_
    obtain rfl := ht.unique hu
    have ha : t.Alike AnyPlace u' := hnear.resolve_right fun h => hk h.1
    exact copies_advance ht hk (C.logic.map fun _ _ h => .unary span_any ha h)
  · refine CopiesFrom.reword (CopiesFrom.mono ?_ fun _ h => h.operand) _
    refine ((layer_comparison C).operators words fun t t' h => ?_).copies
    rw [h.isKeyword, h.isKeyword]

/-- The same statement, whatever was taken back in it. -/
abbrev SameFirst (s s' : Node × Nat) : Prop := Same s.1 s'.1

theorem copies_giving {p p' : Position} :
    W.Copies SameFirst (W.Accepts (n + 1)) (giving (read n) p) (giving (read n) p') := by
  intro i hl hi v j hv hj
  obtain ⟨r, m, hr, hv⟩ := bind_elim hv
  obtain ⟨q, hq⟩ := start_eq W.right (m + W.shift)
  rw [reply_attempt] at hr
  cases he : expression (read n) W.left i with
  | ok value k =>
    rw [he] at hr
    cases hr
    obtain rfl : j = m := eq_of_start hv
    obtain ⟨hik, hk, value', hvalue', hsame⟩ := C.expression i hl hi value j he (hj.mono (Nat.le_succ n))
    have hattempt : attempt (expression (read n)) W.right (i + W.shift) = .ok (.ok value') (j + W.shift) := by
      rw [reply_attempt, hvalue']
    obtain ⟨p₁, hp₁⟩ := start_eq W.left j
    cases (bind_ok hp₁).symm.trans hv
    exact ⟨hik, hk, _, (bind_ok hattempt).trans (bind_ok hq), .give span_any (.some hsame)⟩
  | fail d k =>
    rw [he] at hr
    cases hr
    obtain rfl : j = i := eq_of_start hv
    -- nothing was read, and by assumption nothing is read in the other input
    obtain ⟨d', k', hfail'⟩ := hj.fails hi n (Nat.lt_succ_self n) d k he
    have hattempt : ∃ c, attempt (expression (read n)) W.right (j + W.shift) = .ok (.error c) (j + W.shift) := by
      rw [reply_attempt, hfail']
      exact ⟨_, rfl⟩
    obtain ⟨c, hattempt⟩ := hattempt
    obtain ⟨p₁, hp₁⟩ := start_eq W.left j
    cases (bind_ok hp₁).symm.trans hv
    exact ⟨Nat.le_refl _, hi, _, (bind_ok hattempt).trans (bind_ok hq), .give span_any .none⟩
  | fault | exhausted =>
    rw [he] at hr
    cases hr

omit C in
theorem copies_plain {q : Reading Node} (h : W.CopiesAt Same K p q i) :
    W.CopiesAt SameFirst K (p >>= fun s => pure (s, 0)) (q >>= fun s => pure (s, 0)) i :=
  h.bind (fun _ _ _ _ _ h hj => eq_of_pure h ▸ hj) fun a b m _ _ hs =>
    (CopiesFrom.pure hs : W.Copies SameFirst K (pure (a, 0)) (pure (b, 0))) m (Nat.zero_le m)

omit C in
theorem copies_jump (node : Span → Node) (h : ∀ s s', Same (node s) (node s')) {p p' : Position} :
    W.Copies SameFirst K (do return (node ⟨p, ← start⟩, 0)) (do return (node ⟨p', ← start⟩, 0)) :=
  .start fun _ _ => .pure (h _ _)

theorem copies_statement : W.Copies SameFirst (W.Accepts (n + 1)) (statement (read n)) (statement (read n)) := by
  refine .start fun _ _ => .ofWord (fun i t ht hk => ?_) (.ofWord (fun i t ht hk => ?_)
    (.choose (copies_skipWord "give") (copies_giving C) (.choose (copies_skipWord "cut")
      (copies_jump .cut fun _ _ => .cut span_any) (.choose (copies_skipWord "skip")
        (copies_jump .skip fun _ _ => .skip span_any) fun i hl => copies_plain ?_))))
  · exact copies_plain (Copying.bringAt ht (by rw [kind_of_isKeyword hk]; decide))
  · exact copies_plain (Copying.shareAt ht (by rw [kind_of_isKeyword hk]; decide))
  · exact (C.expression.mono fun _ h => h.mono (Nat.le_succ n)).reword _ i hl

omit C in
/-- Where nothing begins, no statement is read in either of two inputs. -/
theorem statement_fails {input input' : Input} {i i' q : Nat} {t t' : Token} {d : Diagnostic} (ht : input.At i t)
    (hs : starts t = false) (ht' : input'.At i' t') (hs' : starts t' = false)
    (h : read n .statement input i = .fail d q) : ∃ d', read n .statement input' i' = .fail d' i' := by
  rcases Nat.lt_or_ge n 3 with hn | hn
  · cases (read_statement_shallow ht hs hn).symm.trans h
  · obtain ⟨n, rfl⟩ : ∃ k, n = k + 3 := ⟨n - 3, by omega⟩
    exact read_statement_fails ht' hs' n

omit C in
theorem statement_ended (n : Nat) (hi : W.len ≤ i) (v : Node) (j : Nat) : read n .statement W.left i ≠ .ok v j := by
  intro h
  obtain ⟨t, ht, hk⟩ := W.beyond i hi
  obtain ⟨d, hd⟩ := read_statement_fails ht (starts_of_halts (halts_of_kind (by rw [hk]; decide))) n
  have hle := read_mono (Nat.le_add_right n 3) .statement W.left i
  rw [h, hd] at hle
  rcases hle with h | h <;> cases h

theorem accepts_statementsAfter {v : List Node × Nat} (hj : W.Accepts n j)
    (h : statementsAfter (read n) fuel W.left m = .ok v j) : W.Accepts n m := by
  cases fuel with
  | zero =>
    cases h
    exact hj
  | succ fuel =>
    obtain ⟨c, k, hc, hrest⟩ := bind_elim h
    rcases newlines_elim hc with ⟨rfl, rfl⟩ | ⟨⟨t, ht, hk⟩, -⟩
    · cases hrest
      exact hj
    · exact C.halt m t ht (halts_of_kind (by rw [hk]; decide))

abbrev SameAll (s s' : List Node × Nat) : Prop := Forall₂ Same s.1 s'.1

theorem copies_statementsAfter (hf : W.len < i + fuel) (hf' : W.len < i + fuel') :
    W.CopiesAt SameAll W.Stops (statementsAfter (read n) fuel) (statementsAfter (read n) fuel') i := by
  induction fuel generalizing fuel' i with
  | zero => exact fun hi => absurd hi (by omega)
  | succ fuel ih =>
    intro hi
    obtain ⟨fuel', rfl⟩ : ∃ f, fuel' = f + 1 := ⟨fuel' - 1, by omega⟩
    revert hi
    refine (copies_newlines i (Nat.zero_le i)).bind (fun c m v j hc h hj => ?_) ?_
    · split at h
      · exact eq_of_pure h ▸ hj.lt
      · refine Nat.lt_of_not_le fun hm => ?_
        obtain ⟨r, k, hr, h⟩ := bind_elim h
        rw [reply_attempt] at hr
        split at hr
        · next he => exact statement_ended n hm _ _ he
        · cases hr
          exact absurd (eq_of_pure h ▸ hj : W.Stops _).lt (by omega)
        all_goals cases hr
    · rintro c _ m hc him rfl
      obtain ⟨rfl, -⟩ := newlines_run hc
      split
      · exact (CopiesFrom.pure .nil : W.Copies SameAll W.Stops _ _) _ (Nat.zero_le _)
      intro hm v j hv hj
      obtain ⟨r, k, hr, hv⟩ := bind_elim hv
      rw [reply_attempt] at hr
      split at hr
      · next s l he =>
        obtain ⟨rfl, rfl⟩ : r = .ok s ∧ k = l := by
          injection hr with hr hl
          exact ⟨hr.symm, hl.symm⟩
        obtain ⟨⟨more, reversed⟩, _, hmore, hv⟩ := bind_elim hv
        cases hv
        obtain ⟨hmk, hk, s', he', hs⟩ := C.statement _ (Nat.zero_le _) hm s _ he
          (accepts_statementsAfter C (C.at_stop hj) hmore)
        have hfuel : W.len < k + fuel' := by omega
        obtain ⟨hkj, hj, ⟨more', reversed'⟩, hmore', hall⟩ := ih (by omega) hfuel hk _ _ hmore hj
        have hattempt : attempt (read n .statement) W.right (i + c + W.shift) = .ok (.ok s') (k + W.shift) := by
          rw [reply_attempt, he']
        exact ⟨by omega, hj, _, (bind_ok hattempt).trans (bind_ok hmore'), .cons hs hall⟩
      · next d k he =>
        cases hr
        obtain rfl : j = i + c := eq_of_pure hv
        cases hv
        obtain ⟨t, ht, hh, -⟩ := hj
        obtain ⟨t', ht', hnear⟩ := W.near ht hm
        have hs := starts_of_halts hh
        obtain ⟨d', hd'⟩ := statement_fails ht hs ht' (Near.starts hnear hs) he
        have hattempt : attempt (read n .statement) W.right (i + c + W.shift) = .ok (.error 0) (i + c + W.shift) := by
          rw [reply_attempt, hd']
          simp
        exact ⟨Nat.le_refl _, hm, ([], 0), bind_ok hattempt, Forall₂.nil⟩
      all_goals cases hr

theorem copies_statements : W.Copies SameFirst W.Stops (statements (read n)) (statements (read n)) := by
  have rest (p p' : Position) : W.Copies SameFirst W.Stops
      (do
        let first ← read n .statement
        let more ← statementsAfter (read n) (← bound)
        return (.list ⟨p, ← stop⟩ (first :: more.1), more.2))
      (do
        let first ← read n .statement
        let more ← statementsAfter (read n) (← bound)
        return (.list ⟨p', ← stop⟩ (first :: more.1), more.2)) := by
    refine C.statement.bind (fun _ m v j h hj => ?_) fun _ _ hs => .ofBound fun f f' hf hf' i _ =>
      (copies_statementsAfter C (by omega) (by omega)).bind (fun _ _ _ _ _ h hj => eq_of_stop h ▸ hj)
        fun _ _ m _ _ hall => ?_
    · obtain ⟨fuel, k, hfuel, h⟩ := bind_elim h
      cases hfuel
      obtain ⟨more, k, hmore, h⟩ := bind_elim h
      obtain rfl := eq_of_stop h
      exact accepts_statementsAfter C (C.at_stop hj) hmore
    · exact (.stop fun _ _ => .pure (.list span_any (.cons hs hall)) :
        W.Copies SameFirst W.Stops _ _) m (Nat.zero_le m)
  refine .start fun p p' => copies_newlines.bind (fun _ m v j h hj => ?_) fun _ _ _ i _ hi v j hv hj => ?_
  · refine Nat.lt_of_not_le fun hm => ?_
    obtain ⟨t, ht, hk⟩ := W.beyond m hm
    have hend := (bind_ok (isKind_at ht .eof)).symm.trans h
    rw [hk] at hend
    exact absurd (eq_of_stop hend ▸ hj : W.Stops m).lt (by omega)
  · obtain ⟨b, m, hb, hv⟩ := bind_elim hv
    obtain ⟨rfl, t, ht, rfl⟩ := isKind_elim hb
    split at hv
    · next hk =>
      obtain rfl := eq_of_stop hv
      exact absurd (eq_of_beq hk) (W.inner _ hj.lt t ht)
    · next hk =>
      obtain ⟨t', ht', ha⟩ := W.alike ht (W.lt ht (by simpa using hk))
      have hb' : isKind .eof W.right (m + W.shift) = .ok false (m + W.shift) := by
        rw [isKind_at ht', ← ha.kind]
        simp [hk]
      obtain ⟨hle, hjl, v', hv', hR⟩ := rest p p' m (Nat.zero_le m) hi v j hv hj
      exact ⟨hle, hjl, v', (bind_ok hb').trans hv', hR⟩

omit C

/-- The node of something that is read together with what was taken back in it. -/
theorem copies_node {p q : Reading (Node × Nat)} (h : W.Copies SameFirst K p q) :
    W.Copies Same K (do return (← p).1) (do return (← q).1) :=
  h.bind (fun _ _ _ _ h hj => eq_of_pure h ▸ hj) fun _ _ hs => .pure hs

theorem read_copies (n : Nat) : Copying W (read n) (W.Accepts n) (W.AcceptsOperand n) := by
  induction n using Nat.strongRecOn with
  | ind n ih =>
    have halt (j : Nat) (t : Token) (ht : W.left.At j t) (h : halts t = true) : W.Accepts n j := accepts_halt ht h
    have ended := fun v j => statement_ended (W := W) n (Nat.le_refl _) v j
    cases n with
    | zero =>
      have nothing {K : Nat → Prop} (part : Part) : W.Copies Same K (read 0 part) (read 0 part) :=
        fun i _ _ v j h => by cases h
      exact ⟨nothing _, nothing _, nothing _, nothing _, halt, fun j t u v ht hk hu hku hv hkv =>
        accepts_clause ht hk hu hku hv hkv, ended⟩
    | succ n =>
      have C := ih n (Nat.lt_succ_self n)
      have mono {p : Reading Node} (h : W.Copies Same (W.Accepts n) p p) : W.Copies Same (W.Accepts (n + 1)) p p :=
        h.mono fun _ h => h.mono (Nat.le_succ n)
      have hfactor := copies_factor C fun m hm => (ih m (by omega)).logic
      exact ⟨mono (copies_logic C), copies_node (copies_statement C), copies_node (copies_statements C),
        hfactor.mono fun _ h => h.mono (Nat.le_succ n), halt, fun j t u v ht hk hu hku hv hkv =>
          accepts_clause ht hk hu hku hv hkv, ended⟩

end Window

end Utterance.Grammar

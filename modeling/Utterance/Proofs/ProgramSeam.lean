import Utterance.Proofs.WindowParts

/-!
# Programs one after the other

`Follows n input i ns e` says that from `i` on there are the statements `ns` up to the end at `e`, with line ends
between them. A program is what follows its beginning (`follows_of_program`, `program_of_follows`). What follows in
one input is copied to another one, where something else may follow instead of the end (`Follows.copy`). So the
statements of two programs with a line end between them are those of the first one and then those of the second one
(`parse_append_line`).
-/

namespace Utterance.Grammar

open Reading Input List Window Lexeme

open Token (Kind)

variable {init init' : List Lexeme} {node tree : Node} {reversed : Nat}

variable {input : Input} {n i j k e : Nat} {t : Token} {ns : List Node}

def Input.ClosesAt (input : Input) (i : Nat) : Prop := ∃ t, input.At i t ∧ (t.kind = .newline ∨ t.kind = .eof)

/-- Statements from one place up to the end, each of them up to the end of its line. -/
inductive Follows (n : Nat) (input : Input) : Nat → List Node → Nat → Prop
  | done {i : Nat} {t : Token} : input.At i t → t.kind = .eof → Follows n input i [] i
  | line {i e : Nat} {t : Token} {ns : List Node} : input.At i t → t.kind = .newline → Follows n input (i + 1) ns e →
    Follows n input i ns e
  | statement {i k e : Nat} {s : Node} {ns : List Node} : read n .statement input i = .ok s k → input.ClosesAt k →
    Follows n input k ns e → Follows n input i (s :: ns) e

theorem Follows.le (h : Follows n input i ns e) : i ≤ e := by
  induction h with
  | done => exact Nat.le_refl _
  | line _ _ _ ih => omega
  | statement hs _ _ ih => exact Nat.le_trans (le_of_ok hs) ih

theorem Follows.end_eof (h : Follows n input i ns e) : ∃ t, input.At e t ∧ t.kind = .eof := by
  induction h with
  | done ht hk => exact ⟨_, ht, hk⟩
  | line _ _ _ ih | statement _ _ _ ih => exact ih

theorem starts_of_statement {s : Node} (h : read n .statement input i = .ok s j) :
    ∃ t, input.At i t ∧ starts t = true := by
  cases n with
  | zero => cases h
  | succ n =>
    have ht : ∃ t, input.At i t := by
      obtain ⟨_, _, hstatement, -⟩ := bind_elim h
      obtain ⟨p, _, hp, hstatement⟩ := bind_elim hstatement
      obtain ⟨p', hp'⟩ := start_eq input i
      cases hp'.symm.trans hp
      obtain ⟨b, _, hb, -⟩ := bind_elim hstatement
      obtain ⟨rfl, t, ht, -⟩ := isWord_elim hb
      exact ⟨t, ht⟩
    obtain ⟨t, ht⟩ := ht
    refine ⟨t, ht, ?_⟩
    cases hs : starts t with
    | true => rfl
    | false =>
      obtain ⟨d, hd⟩ := read_statement_fails ht hs (n + 1)
      have hle := read_mono (Nat.le_add_right (n + 1) 3) .statement input i
      rw [h, hd] at hle
      rcases hle with h | h <;> cases h

theorem Follows.lines {c : Nat} (hrun : ∀ l < c, ∃ t, input.At (i + l) t ∧ t.kind = .newline)
    (h : Follows n input (i + c) ns e) : Follows n input i ns e := by
  induction c generalizing i with
  | zero => exact h
  | succ c ih =>
    obtain ⟨t, ht, hk⟩ := hrun 0 (Nat.zero_lt_succ c)
    refine .line ht hk (ih (fun l hl => ?_) (by rwa [Nat.add_assoc, Nat.add_comm 1]))
    rw [Nat.add_right_comm]
    exact hrun (l + 1) (by omega)

theorem Follows.newlines {c m : Nat} (hc : newlines input i = .ok c m) (h : Follows n input m ns e) :
    Follows n input i ns e := by
  obtain ⟨rfl, hrun⟩ := newlines_run hc
  exact h.lines hrun

variable {fuel : Nat}

theorem follows_of_statementsAfter
    (h : statementsAfter (read n) fuel input k = .ok (ns, reversed) e) (ht : input.At e t) (hk : t.kind = .eof) :
    input.ClosesAt k ∧ Follows n input k ns e := by
  induction fuel generalizing k ns with
  | zero =>
    cases h
    exact ⟨⟨t, ht, .inr hk⟩, .done ht hk⟩
  | succ fuel ih =>
    obtain ⟨c, m, hc, h⟩ := bind_elim h
    split at h
    · next hzero =>
      cases h
      obtain ⟨rfl, -⟩ := newlines_run hc
      subst hzero
      exact ⟨⟨t, ht, .inr hk⟩, .done ht hk⟩
    · next hne =>
      have hcloses : input.ClosesAt k := by
        rcases newlines_elim hc with ⟨rfl, -⟩ | ⟨⟨u, hu, hku⟩, -⟩
        · exact absurd rfl hne
        · exact ⟨u, hu, .inl hku⟩
      refine ⟨hcloses, .newlines hc ?_⟩
      obtain ⟨r, l, hr, h⟩ := bind_elim h
      rw [reply_attempt] at hr
      split at hr
      · next s _ hs =>
        cases hr
        obtain ⟨⟨more, _⟩, _, hmore, h⟩ := bind_elim h
        cases h
        obtain ⟨hcl, hf⟩ := ih hmore
        exact .statement hs hcl hf
      · cases hr
        cases h
        exact .done ht hk
      all_goals cases hr

theorem follows_of_program (h : program (read n) input 0 = .ok (.ok node, reversed) e) :
    ∃ span ns, node = .list span ns ∧ Follows n input 0 ns e := by
  have stay {q : Position} {i j : Nat} (h : stop input i = .ok q j) : j = i := by
    obtain ⟨q', hq'⟩ := stop_eq input i
    cases hq'.symm.trans h
    rfl
  obtain ⟨⟨m, _⟩, j, hs, h⟩ := bind_elim h
  obtain ⟨b, _, hb, h⟩ := bind_elim h
  obtain ⟨rfl, t, ht, rfl⟩ := isKind_elim hb
  split at h
  · next hk =>
    cases h
    have hk := eq_of_beq hk
    obtain ⟨p, _, hp, hs⟩ := bind_elim hs
    obtain ⟨p', hp'⟩ := start_eq input 0
    cases hp'.symm.trans hp
    obtain ⟨c, m, hc, hs⟩ := bind_elim hs
    obtain ⟨b, _, hb, hs⟩ := bind_elim hs
    obtain ⟨rfl, u, hu, rfl⟩ := isKind_elim hb
    split at hs
    · next hku =>
      obtain ⟨q, _, hq, hlast⟩ := bind_elim hs
      obtain rfl := stay hq
      cases hlast
      exact ⟨_, _, rfl, .newlines hc (.done hu (eq_of_beq hku))⟩
    · obtain ⟨first, l, hfirst, hs⟩ := bind_elim hs
      obtain ⟨fuel, _, hfuel, hs⟩ := bind_elim hs
      cases hfuel
      obtain ⟨⟨more, _⟩, l', hmore, hs⟩ := bind_elim hs
      obtain ⟨q, _, hq, hlast⟩ := bind_elim hs
      obtain rfl := stay hq
      cases hlast
      obtain ⟨hcl, hf⟩ := follows_of_statementsAfter hmore ht hk
      exact ⟨_, _, rfl, .newlines hc (.statement hfirst hcl hf)⟩
  · obtain ⟨_, _, _, h⟩ := bind_elim h
    obtain ⟨_, _, _, h⟩ := bind_elim h
    cases h

theorem skipAll_of_follows (h : Follows n input i ns e) (hf : e < i + fuel) :
    ∃ c t, skipAll .newline fuel input i = .ok c (i + c) ∧ Follows n input (i + c) ns e ∧ input.At (i + c) t ∧
      t.kind ≠ .newline := by
  induction h generalizing fuel with
  | @done i t ht hk =>
    have hne : t.kind ≠ .newline := by rw [hk]; decide
    exact ⟨0, t, skipAll_none ht hne fuel, .done ht hk, ht, hne⟩
  | @line i e t ns ht hk h ih =>
    have hle := h.le
    obtain ⟨fuel, rfl⟩ : ∃ f, fuel = f + 1 := ⟨fuel - 1, by omega⟩
    obtain ⟨c, u, hc, hrest, hu, hne⟩ := @ih fuel (by omega)
    rw [show i + 1 + c = i + (c + 1) by omega] at hc hrest hu
    refine ⟨c + 1, u, (bind_ok (skipKind_at ht .newline)).trans ?_, hrest, hu, hne⟩
    rw [hk]
    exact bind_ok hc
  | @statement i k e s ns hs hcl hrest ih =>
    obtain ⟨t, ht, hstarts⟩ := starts_of_statement hs
    have hne : t.kind ≠ .newline := by
      intro hk
      rw [starts_of_halts (halts_of_kind (by rw [hk]; decide))] at hstarts
      cases hstarts
    exact ⟨0, t, skipAll_none ht hne fuel, .statement hs hcl hrest, ht, hne⟩

theorem newlines_of_follows (h : Follows n input i ns e) (he : e ≤ input.lexemes.size) :
    ∃ c t, newlines input i = .ok c (i + c) ∧ Follows n input (i + c) ns e ∧ input.At (i + c) t ∧ t.kind ≠ .newline :=
  skipAll_of_follows h (by have := h.le; omega)

theorem statementsAfter_of_follows (hn : 3 ≤ n) (h : Follows n input k ns e) (he : e ≤ input.lexemes.size)
    (hcl : input.ClosesAt k) (hf : e < k + fuel) :
    ∃ reversed, statementsAfter (read n) fuel input k = .ok (ns, reversed) e := by
  induction fuel generalizing k ns with
  | zero => exact absurd h.le (by omega)
  | succ fuel ih =>
    obtain ⟨c, t, hc, hrest, ht, hne⟩ := newlines_of_follows h he
    obtain ⟨n, rfl⟩ : ∃ m, n = m + 3 := ⟨n - 3, by omega⟩
    by_cases hzero : c = 0
    · -- a line that does not end here is the last one
      subst hzero
      obtain ⟨u, hu, hk⟩ := hcl
      obtain rfl := ht.unique hu
      have hk := hk.resolve_left hne
      have hnil : ns = [] ∧ e = k := by
        cases hrest with
        | done => exact ⟨rfl, rfl⟩
        | line hu hku => exact absurd (ht.unique hu ▸ hku) hne
        | statement hs =>
          obtain ⟨u, hu, hstarts⟩ := starts_of_statement hs
          rw [← ht.unique hu, starts_of_halts (halts_of_kind (by rw [hk]; decide))] at hstarts
          cases hstarts
      obtain ⟨rfl, rfl⟩ := hnil
      exact ⟨0, bind_ok hc⟩
    · have hone {x y : Reading (List Node × Nat)} : (if c = 0 then x else y) input (k + c) = y input (k + c) := by
        rw [if_neg hzero]
      refine Exists.imp (fun reversed h => (bind_ok hc).trans (hone.trans h)) ?_
      cases hrest with
      | done hu hku =>
        obtain ⟨d, hd⟩ := read_statement_fails hu (starts_of_halts (halts_of_kind (by rw [hku]; decide))) n
        have hattempt : attempt (read (n + 3) .statement) input (k + c) = .ok (.error 0) (k + c) := by
          rw [reply_attempt, hd]
          simp
        exact ⟨0, bind_ok hattempt⟩
      | line hu hku => exact absurd (ht.unique hu ▸ hku) hne
      | @statement _ l _ s ns hs hcl hrest =>
        have hle := le_of_ok hs
        obtain ⟨reversed, hmore⟩ := ih hrest hcl (by omega)
        have hattempt : attempt (read (n + 3) .statement) input (k + c) = .ok (.ok s) l := by
          rw [reply_attempt, hs]
        exact ⟨reversed, (bind_ok hattempt).trans (bind_ok hmore)⟩

theorem program_of_follows (hn : 3 ≤ n) (h : Follows n input 0 ns e) (he : e ≤ input.lexemes.size) :
    ∃ span reversed, program (read n) input 0 = .ok (.ok (.list span ns), reversed) e := by
  obtain ⟨c, t, hc, hrest, ht, hne⟩ := newlines_of_follows h he
  obtain ⟨u, hu, hku⟩ := h.end_eof
  obtain ⟨p, hp⟩ := start_eq input 0
  obtain ⟨q, hq⟩ := stop_eq input e
  suffices hs : ∃ reversed, statements (read n) input 0 = .ok (.list ⟨p, q⟩ ns, reversed) e by
    obtain ⟨reversed, hs⟩ := hs
    refine ⟨⟨p, q⟩, reversed, (bind_ok hs).trans ((bind_ok (isKind_at hu .eof)).trans ?_)⟩
    rw [hku]
    rfl
  rw [Nat.zero_add] at hc hrest ht
  refine Exists.imp (fun reversed h => (bind_ok hp).trans ((bind_ok hc).trans h)) ?_
  cases hrest with
  | done hv hkv =>
    refine ⟨0, (bind_ok (isKind_at hv .eof)).trans ?_⟩
    rw [hkv]
    exact bind_ok hq
  | line hv hkv => exact absurd (ht.unique hv ▸ hkv) hne
  | @statement _ k _ s ns hs hcl hrest =>
    have hkind : t.kind ≠ .eof := by
      intro hk
      obtain ⟨v, hv, hstarts⟩ := starts_of_statement hs
      rw [← ht.unique hv, starts_of_halts (halts_of_kind (by rw [hk]; decide))] at hstarts
      cases hstarts
    obtain ⟨reversed, hmore⟩ := statementsAfter_of_follows hn hrest he hcl
      (show e < k + (input.lexemes.size + 1) by omega)
    refine ⟨reversed, (bind_ok (isKind_at ht .eof)).trans ?_⟩
    rw [beq_false_of_ne hkind]
    exact (bind_ok hs).trans ((bind_ok hmore).trans (bind_ok hq))

/-- What follows in one input of a window follows in the other one, up to where something else goes on. -/
theorem Follows.copy {W : Window} {ms : List Node} {m e' : Nat} (h : Follows n W.left i ms m) (hi : i ≤ W.len)
    (hnext : Follows n W.right (W.len + W.shift) ns e') :
    ∃ ms', Forall₂ (Node.Alike AnyPlace) ms ms' ∧ Follows n W.right (i + W.shift) (ms' ++ ns) e' := by
  induction h with
  | @done i t ht hk =>
    obtain rfl : i = W.len := by
      rcases Nat.lt_or_eq_of_le hi with hlt | heq
      · exact absurd hk (W.inner i hlt t ht)
      · exact heq
    exact ⟨[], .nil, hnext⟩
  | @line i e t ms ht hk _ ih =>
    have hlt := W.lt_of_kind ht hk (by decide)
    obtain ⟨t', ht', ha⟩ := W.alike ht hlt
    obtain ⟨ms', hall, hf⟩ := ih hlt
    rw [Nat.add_right_comm] at hf
    exact ⟨ms', hall, .line ht' (ha.kind ▸ hk) hf⟩
  | @statement i k e s ms hs hcl _ ih =>
    obtain ⟨t, ht, hk⟩ := hcl
    have hend : W.Accepts n k := accepts_halt ht (halts_of_kind (by rcases hk with h | h <;> rw [h] <;> decide))
    obtain ⟨-, hkl, s', hs', hsame⟩ := (read_copies n).statement i (Nat.zero_le i) hi s k hs hend
    obtain ⟨ms', hall, hf⟩ := ih hkl
    refine ⟨s' :: ms', .cons hsame hall, .statement hs' ?_ hf⟩
    obtain ⟨t', ht', hnear⟩ := W.near ht hkl
    rcases hnear with ha | ⟨-, hk'⟩
    · exact ⟨t', ht', ha.kind ▸ hk⟩
    · exact ⟨t', ht', hk'⟩

theorem Input.at_append {before after : List Lexeme} {k : Nat} (hk : k = before.length) (t : Token) :
    (ofList (before ++ .token t :: after)).At k t := by
  simp [Input.At, ofList, hk]

/-- The lexemes of a text, with its end after them, inside other ones. -/
def Window.ofLists {init init' : List Lexeme} (e : Token) (he : e.kind = .eof)
    (hinit : ∀ t, .token t ∈ init → t.kind ≠ .eof) (hall : Forall₂ Lexeme.Alike init init') (before : List Lexeme)
    (t : Token) (ht : t.kind = .newline ∨ t.kind = .eof) (after : List Lexeme) : Window where
  left := .ofList (init ++ [.token e])
  right := .ofList (before ++ init' ++ .token t :: after)
  len := init.length
  shift := before.length
  within i hi := by
    have hi' : i < init'.length := hall.length_eq ▸ hi
    have hleft : (ofList (init ++ [.token e])).lexemes[i]? = some init[i] := by
      simp [ofList, getElem?_append_left hi]
    have hright : (ofList (before ++ init' ++ .token t :: after)).lexemes[i + before.length]? = some init'[i] := by
      simp [ofList, getElem?_append_right, getElem?_append_left hi']
    rw [hleft, hright]
    exact hall.get hi hi'
  inner i hi u hu := by
    refine hinit u (mem_iff_getElem.2 ⟨i, hi, ?_⟩)
    simpa [Input.At, ofList, getElem?_append_left hi, getElem?_eq_getElem hi] using hu
  beyond i hi := by
    refine ⟨e, ?_, he⟩
    rcases Nat.lt_or_eq_of_le hi with hlt | rfl
    · simp [Input.At, ofList, getElem?_append_right hi, Nat.sub_ne_zero_of_lt hlt]
    · simp [Input.At, ofList]
  next := ⟨t, at_append (by rw [length_append, hall.length_eq, Nat.add_comm]) t, ht⟩
  size := by simp [ofList]
  size' := by simp [ofList, hall.length_eq, Nat.add_comm init'.length]

theorem follows_of_parse {lexemes : List Lexeme} (h : parse lexemes = .ok node) (hn : depthFor lexemes.length ≤ n) :
    ∃ span ns e, node = .list span ns ∧ Follows n (.ofList lexemes) 0 ns e := by
  have hle := rising_program _ _ (read_mono hn) (.ofList lexemes) 0
  unfold parse at h
  split at h
  · next tree reversed e hp =>
    obtain rfl := Except.ok.inj h
    rw [hp] at hle
    obtain ⟨span, ns, rfl, hf⟩ := follows_of_program (hle.resolve_left fun h => by cases h).symm
    exact ⟨span, ns, e, rfl, hf⟩
  all_goals cases h

theorem forall₂_concat {α β : Type} {R : α → β → Prop} {xs : List α} {x : α} {zs : List β}
    (h : Forall₂ R (xs ++ [x]) zs) : ∃ ys y, zs = ys ++ [y] ∧ Forall₂ R xs ys ∧ R x y := by
  induction xs generalizing zs with
  | nil =>
    cases h with
    | cons hx h =>
      cases h
      exact ⟨[], _, rfl, .nil, hx⟩
  | cons z xs ih =>
    cases h with
    | cons hz h =>
      obtain ⟨ys, y, rfl, hall, hx⟩ := ih h
      exact ⟨_ :: ys, y, rfl, .cons hz hall, hx⟩

/-- A program that is written elsewhere has the same statements. -/
theorem parse_alike {e e' : Token} (he : e.kind = .eof) (he' : e'.kind = .eof)
    (hinit : ∀ t, .token t ∈ init → t.kind ≠ .eof) (hall : Forall₂ Lexeme.Alike init init')
    (h : parse (init ++ [.token e]) = .ok tree) :
    ∃ span span' ns ns', tree = .list span ns ∧ parse (init' ++ [.token e']) = .ok (.list span' ns') ∧
      Forall₂ (Node.Alike AnyPlace) ns ns' := by
  have hlen := hall.length_eq
  let n := depthFor (init' ++ [token e']).length
  have hdepth : depthFor (init ++ [token e]).length ≤ n := by simp [n, hlen]
  obtain ⟨span, ns, j, rfl, hns⟩ := follows_of_parse h hdepth
  let W := ofLists e he hinit hall [] e' (.inr he') []
  have hend : W.right.At (W.len + W.shift) e' := at_append (by simp [W, ofLists, hlen]) e'
  obtain ⟨ns', hns', hfollows⟩ := Follows.copy (W := W) hns (Nat.zero_le _) (.done hend he')
  rw [append_nil] at hfollows
  have hsize : W.len + W.shift ≤ W.right.lexemes.size := by simp [W, ofLists, ofList, hlen]
  obtain ⟨span', reversed, hp⟩ := program_of_follows (by simp only [n, depthFor]; omega) hfollows hsize
  refine ⟨span, span', ns, ns', rfl, ?_, hns'⟩
  unfold parse
  exact (by rw [show ofList (init' ++ [token e']) = W.right from rfl, hp])

/-- The statements of two programs with a line end between them are those of the one, then those of the other. -/
theorem parse_append_line {last last' : List Lexeme} {e e' t : Token} {tree' : Node} (he : e.kind = .eof)
    (hinit : ∀ t, .token t ∈ init → t.kind ≠ .eof) (he' : e'.kind = .eof) (hlast : ∀ t, .token t ∈ last → t.kind ≠ .eof)
    (ht : t.kind = .newline) (hall : Forall₂ Lexeme.Alike init init')
    (hall' : Forall₂ Lexeme.Alike (last ++ [.token e']) last') (h : parse (init ++ [.token e]) = .ok tree)
    (h' : parse (last ++ [.token e']) = .ok tree') :
    ∃ span span' whole ms ns ms' ns', tree = .list span ms ∧ tree' = .list span' ns ∧
      Forall₂ (Node.Alike AnyPlace) ms ms' ∧ Forall₂ (Node.Alike AnyPlace) ns ns' ∧
      parse (init' ++ .token t :: last') = .ok (.list whole (ms' ++ ns')) := by
  obtain ⟨last', x, rfl, hlast', hx⟩ := forall₂_concat hall'
  cases hx with
  | @token _ f hf =>
    let whole := init' ++ token t :: (last' ++ [.token f])
    have hlen := hall.length_eq
    have hlen' := hlast'.length_eq
    have hdepth : depthFor (init ++ [token e]).length ≤ depthFor whole.length ∧
        depthFor (last ++ [token e']).length ≤ depthFor whole.length := by
      simp only [whole, depthFor, length_append, length_cons, length_nil]
      omega
    obtain ⟨span, ms, j, rfl, hms⟩ := follows_of_parse h hdepth.1
    obtain ⟨span', ns, j', rfl, hns⟩ := follows_of_parse h' hdepth.2
    -- first what comes after the line end, then what comes before it
    let W := ofLists e he hinit hall [] t (.inl ht) (last' ++ [.token f])
    let V := ofLists e' he' hlast hlast' (init' ++ [.token t]) f (.inr (hf.kind ▸ he')) []
    have hW : W.right = .ofList whole := rfl
    have hV : V.right = .ofList whole := by simp [V, whole, ofLists]
    have hf' : (ofList whole).At (V.len + V.shift) f := by
      rw [← hV]
      exact at_append (by simp [V, ofLists, hlen']; omega) f
    obtain ⟨ns', hns', hsecond⟩ := Follows.copy (W := V) hns (Nat.zero_le _) (.done (hV ▸ hf') (hf.kind ▸ he'))
    rw [hV, append_nil] at hsecond
    have ht' : W.right.At (W.len + W.shift) t := at_append (by simp [W, ofLists, hlen]) t
    have hplace : W.len + W.shift + 1 = 0 + V.shift := by simp [W, V, ofLists, hlen]
    obtain ⟨ms', hms', hfirst⟩ := Follows.copy (W := W) hms (Nat.zero_le _) (.line ht' ht (hplace ▸ hsecond))
    have hsize : V.len + V.shift ≤ (ofList whole).lexemes.size := by
      simp [V, ofLists, ofList, whole, hlen']
      omega
    obtain ⟨place, reversed, hp⟩ := program_of_follows (by simp only [depthFor]; omega) hfirst hsize
    refine ⟨span, span', place, ms, ns, ms', ns', rfl, rfl, hms', hns', ?_⟩
    unfold parse
    rw [← hW]
    exact (by rw [hp])

end Utterance.Grammar

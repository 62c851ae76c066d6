import Utterance.Proofs.Scanning

/-!
# How tokens are spelled

A text is made of lexemes with trivia between them.

* `Spelled kind value lexeme` says which lexemes a token of some kind and value may have.
* `Trivia text rest` says that a text before `rest` is made of blanks and comments.
* `Layout n tokens text` cuts a text that stands at the index `n` into lexemes, one for each token, with trivia around
  them.
* `Position.Canonical text p` says that line and column of a position are those of its index.

A step of a scan passes a piece of trivia or a lexeme of the token that it finds (`step_reads`). So whatever is
scanned as tokens is laid out like these tokens, and they stand where they say (`scan_lossless`).
-/

namespace Utterance

variable {cur : Cursor} {last : Option Token} {ts : List Token} {xs : List Lexeme}

namespace Position

open List

/-- The index at which the last line of a text begins. -/
def lineStart (text : List Char) : Nat := text.length - (text.reverse.takeWhile (· != '\n')).length

/-- Line and column are those of the index: the line ends before it, and the distance from the last of them. -/
structure Canonical (text : List Char) (p : Position) : Prop where
  idx : 0 ≤ p.idx
  ln : p.ln = (text.take p.idx.toNat).count '\n'
  col : p.col = p.idx - lineStart (text.take p.idx.toNat)

theorem lineStart_concat (text : List Char) (c : Char) :
    lineStart (text ++ [c]) = if c = '\n' then text.length + 1 else lineStart text := by
  unfold lineStart
  rw [reverse_append, reverse_singleton, singleton_append, List.takeWhile_cons, length_append,
    length_singleton]
  by_cases h : c = '\n'
  · simp [h]
  · simp [h]

theorem lineStart_le (text : List Char) : lineStart text ≤ text.length := Nat.sub_le _ _

theorem afterAll_start (source : Source) (text : List Char) :
    ((start source).afterAll text).idx = text.length ∧ ((start source).afterAll text).ln = text.count '\n' ∧
      ((start source).afterAll text).col = text.length - lineStart text := by
  induction text using List.reverseRecOn with
  | nil => exact ⟨rfl, rfl, rfl⟩
  | append_singleton text c ih =>
    obtain ⟨hidx, hln, hcol⟩ := ih
    have hle := lineStart_le text
    rw [afterAll_concat, idx_after, lineStart_concat, length_append, length_singleton, List.count_append]
    unfold after
    by_cases h : c = '\n'
    · simp [h, hidx, hln]
    · have hcount : List.count '\n' [c] = 0 := by simp [h]
      simp only [h, if_false, next, hidx, hln, hcol, hcount]
      omega

theorem canonical_afterAll (source : Source) (text rest : List Char) :
    Canonical (text ++ rest) ((start source).afterAll text) := by
  obtain ⟨hidx, hln, hcol⟩ := afterAll_start source text
  have htake : (text ++ rest).take ((start source).afterAll text).idx.toNat = text := by
    rw [hidx, Int.toNat_natCast, take_left]
  exact ⟨by omega, by rw [htake, hln], by rw [htake, hcol, hidx]⟩

theorem canonical_next (source : Source) (text : List Char) : Canonical text ((start source).afterAll text).next := by
  obtain ⟨hidx, hln, hcol⟩ := afterAll_start source text
  have hnext : ((start source).afterAll text).next.idx = text.length + 1 := by
    rw [next, hidx]
  have htake : text.take ((start source).afterAll text).next.idx.toNat = text := by
    rw [hnext]
    exact take_of_length_le (by omega)
  refine ⟨by omega, by rw [htake]; exact hln, ?_⟩
  rw [htake, hnext]
  show ((start source).afterAll text).col + 1 = _
  omega

end Position

namespace Token

/-- Blanks and comments before `rest`. -/
inductive Trivia : List Char → List Char → Prop
  | nil (rest : List Char) : Trivia [] rest
  | cons {x text rest} : Trivium x (text ++ rest) → Trivia text rest → Trivia (x ++ text) rest

/-- A text that stands at an index is made of lexemes of some tokens, each at its index, with trivia around them. Only
the last lexeme may be a text without closing quote. -/
inductive Layout : Nat → List Token → List Char → Prop
  | done {n : Nat} {trivia : List Char} : Trivia trivia [] → Layout n [] trivia
  | token {n : Nat} {t : Token} {ts : List Token} {trivia lexeme rest : List Char} : Trivia trivia (lexeme ++ rest) →
    t.start.idx = (n + trivia.length : Nat) → Spelled t.kind t.value lexeme →
    Layout (n + trivia.length + lexeme.length) ts rest → Layout n (t :: ts) (trivia ++ (lexeme ++ rest))
  | unclosed {n : Nat} {t : Token} {trivia lexeme : List Char} : Trivia trivia lexeme →
    t.start.idx = (n + trivia.length : Nat) → SpelledOpen t.kind t.value lexeme → Layout n [t] (trivia ++ lexeme)

theorem Layout.cons {n : Nat} {x text : List Char} (hx : Trivium x text)
    (h : Layout (n + x.length) ts text) : Layout n ts (x ++ text) := by
  cases h with
  | done h => exact .done (.cons (by rwa [List.append_nil]) h)
  | @token _ t ts trivia lexeme rest h hi hs hrest =>
    rw [← List.append_assoc]
    refine .token (.cons hx h) ?_ hs ?_
    · rw [hi, List.length_append, Nat.add_assoc]
    · rwa [List.length_append, ← Nat.add_assoc]
  | @unclosed _ t trivia lexeme h hi hs =>
    rw [← List.append_assoc]
    refine .unclosed (.cons hx h) ?_ hs
    rw [hi, List.length_append, Nat.add_assoc]

theorem scanRest_ok {c : Char} {cs : List Char} (hr : cur.rest = c :: cs) (h : scanRest last cur = .ok xs) :
    (∃ after, step last cur c = .trivia after ∧ cur.Passes after ∧ scanRest last after = .ok xs) ∨
      ∃ x after ys, step last cur c = .lexeme x after ∧ cur.Passes after ∧ scanRest (ofLexeme? x) after = .ok ys ∧
        xs = x :: ys := by
  rw [scanRest_cons hr] at h
  cases hs : step last cur c with
  | refuse r => rw [hs] at h; cases h
  | trivia after =>
    rw [hs] at h
    exact .inl ⟨after, rfl, passes_of_step hr (by rw [hs]; rfl), h⟩
  | lexeme x after =>
    rw [hs] at h
    cases hx : scanRest (ofLexeme? x) after with
    | error r => simp only [Step.followedBy, hx] at h; cases h
    | ok ys =>
      simp only [Step.followedBy, hx] at h
      cases h
      exact .inr ⟨x, after, ys, rfl, passes_of_step hr (by rw [hs]; rfl), hx, rfl⟩

/-- A scan ends with the end of the text, and there is no other one in it. -/
theorem scanRest_ends (h : scanRest last cur = .ok xs) :
    ∃ init e, xs = init ++ [.token e] ∧ e.kind = .eof ∧ ∀ t, .token t ∈ init → t.kind ≠ .eof := by
  induction hn : cur.rest.length using Nat.strongRecOn generalizing last cur xs with
  | ind n ih =>
    subst hn
    cases hr : cur.rest with
    | nil =>
      rw [scanRest_nil hr] at h
      cases h
      exact ⟨[], _, rfl, rfl, by simp⟩
    | cons c cs =>
      rcases scanRest_ok hr h with ⟨after, _, hpass, hx⟩ | ⟨x, after, ys, hs, hpass, hx, rfl⟩
      · exact ih _ hpass.lt hx rfl
      · obtain ⟨init, e, rfl, he, hinit⟩ := ih _ hpass.lt hx rfl
        refine ⟨x :: init, e, rfl, he, fun t ht => ?_⟩
        rcases List.mem_cons.1 ht with rfl | ht
        · exact (token_of_step hr hs).2
        · exact hinit t ht

theorem eq_of_scanRest_nil (hr : cur.rest = [])
    (h : scanRest last cur = .ok (ts.map .token)) : ts = [mark .eof cur.pos] := by
  rw [scanRest_nil hr] at h
  have hmap : [mark .eof cur.pos].map Lexeme.token = ts.map Lexeme.token := Except.ok.inj h
  exact (List.map_injective_iff.2 (fun _ _ => Lexeme.token.inj) hmap).symm

/-- The tokens that are scanned from some place of a text on are laid out there, they stand one after the other, and
their positions are canonical. -/
theorem scanRest_layout {source : Source} {text : List Char} (before : List Char) {last : Option Token}
    {cur : Cursor} {ts : List Token} (htext : text = before ++ cur.rest)
    (hpos : cur.pos = (Position.start source).afterAll before)
    (h : scanRest last cur = .ok (ts.map .token)) :
    ∃ init e, ts = init ++ [e] ∧ Layout before.length init cur.rest ∧ ts.Pairwise (·.start.idx < ·.start.idx) ∧
      ∀ t ∈ ts, before.length ≤ t.start.idx ∧ t.start.Canonical text := by
  induction hn : cur.rest.length using Nat.strongRecOn generalizing before last cur ts with
  | ind n ih =>
    subst hn
    have hidx : cur.pos.idx = before.length := by rw [hpos]; exact (Position.afterAll_start source before).1
    have hhere : (before.length : Int) ≤ cur.pos.idx ∧ cur.pos.Canonical text := by
      refine ⟨by omega, ?_⟩
      rw [htext, hpos]
      exact Position.canonical_afterAll source before cur.rest
    cases hr : cur.rest with
    | nil =>
      obtain rfl := eq_of_scanRest_nil hr h
      refine ⟨[], _, rfl, .done (.nil _), List.pairwise_singleton _ _, fun t ht => ?_⟩
      obtain rfl := List.mem_singleton.1 ht
      exact hhere
    | cons c cs =>
      have hreads : (step last cur c).Reads cur := step_reads hr
      rcases scanRest_ok hr h with ⟨after, hs, hpass, hx⟩ | ⟨x, after, ys, hs, hpass, hx, hts⟩
      · rw [hs] at hreads
        obtain ⟨trivium, htrivium, hover⟩ := hreads
        obtain ⟨init, e, rfl, hlayout, hpair, hall⟩ := ih _ hpass.lt (before ++ trivium)
          (by rw [htext, hover.rest, List.append_assoc])
          (by rw [hover.pos, hpos, Position.afterAll_append]) hx rfl
        rw [List.length_append] at hlayout hall
        refine ⟨init, e, rfl, ?_, hpair, fun t ht => ⟨by have := (hall t ht).1; omega, (hall t ht).2⟩⟩
        rw [← hr, hover.rest]
        exact .cons htrivium hlayout
      · cases ts with
        | nil => cases hts
        | cons t ts =>
          obtain ⟨rfl, rfl⟩ : Lexeme.token t = x ∧ ts.map Lexeme.token = ys := List.cons.inj hts
          rw [hs] at hreads
          obtain ⟨hstart, ⟨lexeme, hspelled, hover⟩ | ⟨hspelled, hafter⟩⟩ := hreads
          · have hlength : 0 < lexeme.length := by
              have := hpass.lt
              rw [hover.rest, List.length_append] at this
              omega
            obtain ⟨init, e, rfl, hlayout, hpair, hall⟩ := ih _ hpass.lt (before ++ lexeme)
              (by rw [htext, hover.rest, List.append_assoc])
              (by rw [hover.pos, hpos, Position.afterAll_append]) hx rfl
            rw [List.length_append] at hlayout hall
            refine ⟨t :: init, e, rfl, ?_, List.pairwise_cons.2 ⟨fun u hu => ?_, hpair⟩, fun u hu => ?_⟩
            · rw [← hr, hover.rest]
              exact @Layout.token _ t _ [] _ _ (.nil _) (by rw [hstart, hidx]; rfl) hspelled hlayout
            · have := (hall u hu).1
              rw [hstart, hidx]
              omega
            · rcases List.mem_cons.1 hu with rfl | hu
              · rw [hstart]
                exact hhere
              · exact ⟨by have := (hall u hu).1; omega, (hall u hu).2⟩
          · -- a text without closing quote is the last token before the end, which is one past the end of the text
            have hend : after.pos = ((Position.start source).afterAll text).next := by
              rw [hafter, htext, Position.afterAll_append, hpos]
            obtain rfl := eq_of_scanRest_nil (by rw [hafter]) hx
            have hidx' : (mark .eof after.pos).start.idx = text.length + 1 := by
              rw [mark, hend, Position.next, (Position.afterAll_start source text).1]
            have hle : before.length ≤ text.length := by rw [htext, List.length_append]; omega
            refine ⟨[t], _, rfl, ?_, ?_, fun u hu => ?_⟩
            · rw [← hr]
              exact @Layout.unclosed _ t [] _ (.nil _) (by rw [hstart, hidx]; rfl) hspelled
            · refine List.pairwise_pair.2 ?_
              rw [hstart, hidx, hidx']
              omega
            · rcases List.mem_pair.1 hu with rfl | rfl
              · rw [hstart]
                exact hhere
              · refine ⟨by rw [hidx']; omega, ?_⟩
                rw [mark, hend]
                exact Position.canonical_next source text

/-- A scan comes to an end: no bound on its steps from the length of the text on changes what it gives, and if it
gives lexemes, the end of the text is the last of them and no other one. If all of them are tokens, they start one
after the other at canonical positions, and the text is laid out like them. -/
theorem scan_lossless (source : Source) :
    (∀ n ≥ source.text.length, scanFrom n none (Cursor.start source) = scan source) ∧
    ∀ xs, scan source = .ok xs → ∃ init e, xs = init ++ [.token e] ∧ e.kind = .eof ∧
      (∀ t, .token t ∈ init → t.kind ≠ .eof) ∧
      ∀ ts : List Token, init = ts.map .token →
        (ts ++ [e]).Pairwise (·.start.idx < ·.start.idx) ∧
        (∀ t ∈ ts ++ [e], t.start.Canonical source.text.toList) ∧ Layout 0 ts source.text.toList := by
  refine ⟨fun n hn => scanFrom_eq (by rwa [Cursor.start, String.length_toList]) (Nat.le_refl _), fun xs h => ?_⟩
  obtain ⟨init, e, rfl, he, hinit⟩ := scanRest_ends h
  refine ⟨init, e, rfl, he, hinit, ?_⟩
  rintro ts rfl
  have hmap : scan source = .ok ((ts ++ [e]).map .token) := by rw [h, List.map_append]; rfl
  obtain ⟨init, e', heq, hlayout, hpair, hall⟩ :=
    @scanRest_layout source source.text.toList [] _ _ _ rfl rfl hmap
  obtain ⟨rfl, -⟩ := List.append_inj' heq rfl
  exact ⟨hpair, fun t ht => (hall t ht).2, hlayout⟩

namespace Sample

/-- The words of a keyword with blanks between them, a comment, and a string without its closing quote. -/
def unclosed : Source := ⟨"w", "as  long as $c\n\"a"⟩

def unclosedTokens : List Token :=
  [⟨.keyword, .text "as long as", ⟨0, 0, 0, unclosed⟩, ⟨11, 0, 11, unclosed⟩⟩, mark .newline ⟨14, 0, 14, unclosed⟩,
    ⟨.string, .text "a", ⟨15, 1, 0, unclosed⟩, ⟨18, 1, 3, unclosed⟩⟩]

theorem scan_unclosed : scan unclosed = .ok (unclosedTokens.map .token ++ [.token (mark .eof ⟨18, 1, 3, unclosed⟩)]) :=
  rfl

theorem scan_lossless_unclosed : Layout 0 unclosedTokens unclosed.text.toList := by
  obtain ⟨init, e, heq, -, -, hall⟩ := (scan_lossless unclosed).2 _ scan_unclosed
  obtain ⟨hinit, -⟩ := List.append_inj' heq rfl
  exact (hall unclosedTokens hinit.symm).2.2

end Sample

end Token

end Utterance

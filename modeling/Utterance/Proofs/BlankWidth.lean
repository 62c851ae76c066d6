import Utterance.Grammar.Rules
import Utterance.Proofs.Ways

/-!
# How wide blanks are

Blanks between two tokens can be replaced by other blanks: a step finds the same before blanks of any width, and
behind them scanning finds the same at any place (`scanRest_similar`). The one exception is `>` where it may close a
tuple (`step_greater_blanks`). So a scan finds the same tokens after such a change exactly if no `>` like that stands
before the blanks (`scan_blanks_iff`).
-/

namespace Utterance.Token

open List

variable {b t : List Char} {last : Option Token} {xs : List Lexeme}

section

variable {last' : Option Token} {p p' : Position}

/-- Tuples are closed by what follows one blank after `>`, and by nothing after several. -/
theorem step_greater_blanks (hb : Blanks b) (hm : mayClose last = true) : step last ⟨p, '>' :: (b ++ t)⟩ '>' =
      if b.length = 1 ∧ t = [] then .refuse (.fault ⟨.endOfText, ⟨p.after '>', b ++ t⟩⟩) else
        .lexeme (.token ⟨if b.length = 1 ∧ closesTuple t then .rangle else .gt, .absent, p, p.after '>'⟩)
          ⟨p.after '>', b ++ t⟩ := by
  have hstep (y : List Char) : step last ⟨p, '>' :: y⟩ '>' = .ofScanned (scanGreater last ⟨p, '>' :: y⟩) := rfl
  cases b with
  | nil => exact absurd rfl hb.ne_nil
  | cons d ds =>
    have hd := hb.blank d (mem_cons_self ..)
    rw [hstep, cons_append, scanGreater_blank hm hd]
    cases ds with
    | nil => by_cases ht : t = [] <;> simp [ht, Step.ofScanned, Step.ofToken]
    | cons e es =>
      have he := hb.blank e (mem_cons_of_mem _ (mem_cons_self ..))
      rw [cons_append, closesTuple_blank he]
      simp [Step.ofScanned, Step.ofToken]

/-- A change of the width decides whether `>` closes a tuple. -/
structure Splits (last : Option Token) (b b' t : List Char) : Prop where
  mayClose : mayClose last = true
  closes : closesTuple t = true
  width : b.length = 1 ↔ b'.length ≠ 1

theorem step_greater_similar {b' : List Char} (hb : Blanks b) (hb' : Blanks b') (hl : Sees last last')
    (hs : ¬Splits last b b' t) :
    Step.Similar p p' (b ++ t) (b' ++ t) (step last ⟨p, '>' :: (b ++ t)⟩ '>')
    (step last' ⟨p', '>' :: (b' ++ t)⟩ '>') := by
  by_cases hm : mayClose last = true
  · have hwidth (ht : closesTuple t = true) : b.length = 1 ↔ b'.length = 1 := by
      have := mt (Splits.mk hm ht) hs
      tauto
    rw [step_greater_blanks hb hm, step_greater_blanks hb' (hl.mayClose.trans hm)]
    refine ite_elim (f := id) (and_congr_left ?_) (fun _ => .refuse _ _) fun _ => ?_
    · rintro rfl
      exact hwidth rfl
    · rw [if_congr (and_congr_left hwidth) rfl rfl]
      apply similar_token []
  · exact @scanGreater_edge [] _ _ _ _ _ _ _ (.blanks t hb hb') hl fun _ h => absurd h hm

end

/-- Scans that find the same but for positions. -/
inductive ScanSimilar : Except Refusal (List Lexeme) → Except Refusal (List Lexeme) → Prop
  | ok {xs xs' : List Lexeme} : Forall₂ Lexeme.Alike xs xs' → ScanSimilar (.ok xs) (.ok xs')
  | error (r r' : Refusal) : ScanSimilar (.error r) (.error r')

theorem scanRest_similar {last' : Option Token} {p p' : Position} {s : List Char} (hl : Sees last last') :
    ScanSimilar (scanRest last ⟨p, s⟩) (scanRest last' ⟨p', s⟩) := by
  induction hn : s.length using Nat.strongRecOn generalizing last last' p p' s with
  | ind n ih =>
    subst hn
    cases s with
    | nil =>
      rw [scanRest_nil rfl, scanRest_nil rfl]
      exact .ok (.cons (.token ⟨rfl, rfl, trivial, trivial⟩) .nil)
    | cons c cs =>
      have hstep : Step.Similar p p' [] [] (step last ⟨p, c :: cs⟩ c) (step last' ⟨p', c :: cs⟩ c) := by
        have := @step_similar cs [] c last last' [] p p' .none hl fun _ _ ⟨b, hb, _⟩ => by cases hb
        rwa [append_nil] at this
      have hlt (after : Cursor) (h : (step last ⟨p, c :: cs⟩ c).after? = some after) := (passes_of_step rfl h).lt
      rw [@scanRest_cons last ⟨p, c :: cs⟩ c cs rfl, @scanRest_cons last' ⟨p', c :: cs⟩ c cs rfl]
      cases hs : step last ⟨p, c :: cs⟩ c with
      | trivia a =>
        rw [hs] at hstep
        obtain ⟨stop, r, rfl, hs'⟩ := hstep.of_trivia (Nat.not_lt_zero _) fun _ h => absurd rfl h
        rw [hs']
        exact ih _ (hlt _ (by rw [hs]; rfl)) hl rfl
      | lexeme x a =>
        rw [hs] at hstep
        obtain ⟨y, stop, r, rfl, hy, rfl, hs'⟩ := hstep.of_lexeme (Nat.not_lt_zero _) fun _ h => absurd rfl h
        have htail := @ih _ (hlt _ (by rw [hs]; rfl)) _ _ (stop p) (stop p') _ (sees_of_alike (hy p p')) rfl
        rw [hs', Step.followedBy, Step.followedBy]
        revert htail
        generalize scanRest _ _ = found, scanRest _ _ = found'
        rintro (hxs | _)
        · exact .ok (.cons (hy p p') hxs)
        · exact .error _ _
      | refuse r =>
        rw [hs] at hstep
        generalize step last' ⟨p', c :: cs⟩ c = s' at hstep ⊢
        cases hstep with
        | refuse => exact .error _ _
        | beyond _ h => cases h
        | ended _ h => exact absurd rfl h

theorem ScansTo.blanks (hb : ∀ c ∈ b, Cursor.isSpace c = true) (last : Option Token) (q : Position) (t : List Char) :
    ∃ q', ScansTo last ⟨q, b ++ t⟩ [] last ⟨q', t⟩ := by
  induction b generalizing q with
  | nil => exact ⟨q, .here _ _⟩
  | cons c cs ih =>
    obtain ⟨q', h⟩ := ih (fun c hc => hb c (mem_cons_of_mem _ hc)) (q.after c)
    exact ⟨q', .trivia rfl (if_pos (hb c (mem_cons_self ..))) h⟩

/-- What is found at a `>` right before blanks, where it may close a tuple. -/
theorem scanRest_greater {q : Position} (hb : Blanks b)
    (hm : mayClose last = true) (h : scanRest last ⟨q, '>' :: (b ++ t)⟩ = .ok xs) :
    ∃ x ys, xs = .token x :: ys ∧ x.kind = if b.length = 1 ∧ closesTuple t then .rangle else .gt := by
  rw [@scanRest_cons last ⟨q, '>' :: (b ++ t)⟩ '>' (b ++ t) rfl, step_greater_blanks hb hm] at h
  split at h
  · cases h
  · rw [Step.followedBy] at h
    cases hrest : scanRest (ofLexeme? (.token ⟨if b.length = 1 ∧ closesTuple t then .rangle else .gt, .absent, q,
        q.after '>'⟩)) ⟨q.after '>', b ++ t⟩ with
    | error r =>
      rw [hrest] at h
      cases h
    | ok ys =>
      rw [hrest] at h
      cases h
      exact ⟨_, ys, rfl, rfl⟩

theorem map_eq_ok {found : Except Refusal (List Lexeme)} {zs : List Lexeme} (h : found.map (zs ++ ·) = .ok xs) :
    ∃ us, found = .ok us ∧ zs ++ us = xs := by
  cases found with
  | error r => cases h
  | ok us => exact ⟨us, rfl, Except.ok.inj h⟩

theorem cursor_start (name before b after : String) : Cursor.start ⟨name, before ++ b ++ after⟩ =
    ⟨Position.start ⟨name, before ++ b ++ after⟩, before.toList ++ (b.toList ++ after.toList)⟩ := by
  simp [Cursor.start]

/-- Blanks between two tokens are replaced by others, and a scan finds the same kinds and values, exactly if no `>`
stands before them whose meaning the width decides. -/
theorem scan_blanks_iff {name before blanks blanks' after : String} {xs ys : List Lexeme} {last : Option Token}
    {p : Position}
    (hscan : scan ⟨name, before ++ blanks ++ after⟩ = .ok xs) (hb : Blanks blanks.toList) (hb' : Blanks blanks'.toList)
    (hway : ScansTo none (.start ⟨name, before ++ blanks ++ after⟩) ys last ⟨p, blanks.toList ++ after.toList⟩) :
    (∃ xs', scan ⟨name, before ++ blanks' ++ after⟩ = .ok xs' ∧ Forall₂ Lexeme.Alike xs xs') ↔
      ¬∃ zs m q, ScansTo none (.start ⟨name, before ++ blanks ++ after⟩) zs m
        ⟨q, '>' :: (blanks.toList ++ after.toList)⟩ ∧ Splits m blanks.toList blanks'.toList after.toList := by
  have hedge := Edge.blanks after.toList hb hb'
  have hne (h : blanks.toList ++ after.toList = []) : blanks'.toList ++ after.toList = [] :=
    absurd (append_eq_nil_iff.1 h).1 hb.ne_nil
  rw [cursor_start] at hway ⊢
  rw [scan_eq, cursor_start] at hscan ⊢
  constructor
  · rintro ⟨xs', hscan', halike⟩ ⟨zs, m, q, hto, hsplit⟩
    obtain ⟨zs', m', q', hto', hzs, hsees, -⟩ :=
      ScansTo.widen (r := ['>']) hedge hne (.start ⟨name, before ++ blanks' ++ after⟩) .none hto (fun h => by cases h)
    rw [hto.scanRest] at hscan
    rw [hto'.scanRest] at hscan'
    obtain ⟨us, hus, rfl⟩ := map_eq_ok hscan
    obtain ⟨us', hus', rfl⟩ := map_eq_ok hscan'
    obtain ⟨x, vs, rfl, hx⟩ := scanRest_greater hb hsplit.mayClose hus
    obtain ⟨x', vs', rfl, hx'⟩ := scanRest_greater hb' (hsees.mayClose.trans hsplit.mayClose) hus'
    have hrest := List.forall₂_drop_append _ _ _ halike
    rw [← hzs.length_eq, drop_left] at hrest
    obtain ⟨⟨hkind⟩, -⟩ := List.forall₂_cons.1 hrest
    have hwidth := hkind.kind
    rw [hx, hx', hsplit.closes] at hwidth
    have := hsplit.width
    by_cases h1 : blanks.toList.length = 1
    · simp [h1, this.1 h1] at hwidth
    · simp [h1, not_not.1 (mt this.2 h1)] at hwidth
  · intro hnot
    obtain ⟨ys', l', q', hway', hys, hsees, -⟩ :=
      ScansTo.widen (r := []) hedge hne (.start ⟨name, before ++ blanks' ++ after⟩) .none hway
        fun _ _ zs m m' o o' hto hm =>
        step_greater_similar hb hb' hm fun hs => hnot ⟨zs, m, o, hto, hs⟩
    obtain ⟨o, hpass⟩ := ScansTo.blanks hb.blank last p after.toList
    obtain ⟨o', hpass'⟩ := ScansTo.blanks hb'.blank l' q' after.toList
    rw [hway.scanRest, hpass.scanRest] at hscan
    rw [nil_append] at hway'
    rw [hway'.scanRest, hpass'.scanRest]
    have hrest := @scanRest_similar last l' o o' after.toList hsees
    revert hscan hrest
    generalize scanRest _ _ = found, scanRest _ _ = found'
    rintro hscan (hus | _)
    · cases hscan
      exact ⟨_, rfl, rel_append hys hus⟩
    · cases hscan

namespace Sample

def tuple : Source := ⟨"w", "<1>" ++ " " ++ ";"⟩

def tupleLexemes : List Lexeme :=
  [.token ⟨.langle, .absent, ⟨0, 0, 0, tuple⟩, ⟨1, 0, 1, tuple⟩⟩,
    .token ⟨.int, .int 1, ⟨1, 0, 1, tuple⟩, ⟨2, 0, 2, tuple⟩⟩,
    .token ⟨.rangle, .absent, ⟨2, 0, 2, tuple⟩, ⟨3, 0, 3, tuple⟩⟩, .token (mark .newline ⟨4, 0, 4, tuple⟩),
    .token (mark .eof ⟨5, 0, 5, tuple⟩)]

theorem toGreater : ScansTo none (.start tuple) (tupleLexemes.take 2)
    (some ⟨.int, .int 1, ⟨1, 0, 1, tuple⟩, ⟨2, 0, 2, tuple⟩⟩) ⟨⟨2, 0, 2, tuple⟩, '>' :: (" ".toList ++ ";".toList)⟩ :=
  .lexeme rfl rfl (.lexeme rfl rfl (.here _ _))

/-- A tab after a tuple does no harm, a second blank does. -/
theorem scan_blanks_iff_tuple : (∃ xs', scan ⟨"w", "<1>\t;"⟩ = .ok xs' ∧ Forall₂ Lexeme.Alike tupleLexemes xs') ∧
    ¬∃ xs', scan ⟨"w", "<1>  ;"⟩ = .ok xs' ∧ Forall₂ Lexeme.Alike tupleLexemes xs' := by
  have hway : ScansTo none (.start tuple) (tupleLexemes.take 3)
    (some (upTo .rangle ⟨⟨2, 0, 2, tuple⟩, []⟩ ⟨⟨3, 0, 3, tuple⟩, []⟩))
      ⟨⟨3, 0, 3, tuple⟩, " ".toList ++ ";".toList⟩ :=
    .lexeme rfl rfl (.lexeme rfl rfl (.lexeme rfl rfl (.here _ _)))
  have hscan : scan tuple = .ok tupleLexemes := rfl
  constructor
  · refine (@scan_blanks_iff "w" "<1>" " " "\t" ";" _ _ _ _ hscan (by decide) (by decide) hway).2 ?_
    rintro ⟨zs, m, q, -, h⟩
    exact absurd h.width (by decide)
  · refine mt (@scan_blanks_iff "w" "<1>" " " "  " ";" _ _ _ _ hscan (by decide) (by decide) hway).1 (not_not_intro ?_)
    exact ⟨_, _, _, toGreater, by decide, by decide, by decide⟩

def kinds (xs : List Lexeme) : List (Option Kind) := xs.map fun x => (ofLexeme? x).map Token.kind

theorem kinds_eq {xs' : List Lexeme} (h : Forall₂ Lexeme.Alike xs xs') : kinds xs = kinds xs' := by
  induction h with
  | nil => rfl
  | @cons x x' xs xs' hx _ ih =>
    have hkind : (ofLexeme? x).map Token.kind = (ofLexeme? x').map Token.kind := by
      cases hx with
      | token h => exact congrArg some h.kind
      | refused d d' => rfl
    exact congrArg₂ (· :: ·) hkind ih

/-- A program that is read with one blank after a tuple, and of which other tokens are found with two. -/
theorem tuple_open_before_two_blanks : ∃ xs n, scan ⟨"w", "put <1> in x"⟩ = .ok xs ∧ Grammar.parse xs = .ok n ∧
    ¬∃ xs', scan ⟨"w", "put <1>  in x"⟩ = .ok xs' ∧ Forall₂ Lexeme.Alike xs xs' := by
  have hread : ((scan ⟨"w", "put <1> in x"⟩).toOption.bind fun xs => (Grammar.parse xs).toOption).isSome = true := by
    decide +kernel
  have hkinds : (scan ⟨"w", "put <1> in x"⟩).toOption.map kinds ≠ (scan ⟨"w", "put <1>  in x"⟩).toOption.map kinds := by
    decide +kernel
  obtain ⟨n, hn⟩ := Option.isSome_iff_exists.1 hread
  cases hscan : scan ⟨"w", "put <1> in x"⟩ with
  | error r =>
    rw [hscan] at hn
    cases hn
  | ok xs =>
    rw [hscan] at hn hkinds
    cases hparse : Grammar.parse xs with
    | error r =>
      simp [Except.toOption, hparse] at hn
    | ok n =>
      refine ⟨xs, n, rfl, hparse, ?_⟩
      rintro ⟨xs', hscan', halike⟩
      rw [hscan'] at hkinds
      exact hkinds (congrArg some (kinds_eq halike))

end Sample

end Utterance.Token

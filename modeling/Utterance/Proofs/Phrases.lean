import Utterance.Proofs.ScanFaults

/-!
# Keywords of several words

Where a word begins, the scanner may go on over blanks to the words of a longer keyword. It comes to such a keyword
exactly if its words stand there one after the other and the last of them ends (`Stand`); otherwise it is back behind
the first word, whatever it looked at (`scanWord_exact`).
-/

namespace Utterance.Token

open List Cursor

variable {ws : List String}

/-- The keywords of several words, as their words. -/
def phrases : List (List String) := [["as", "long", "as"], ["make", "function"], ["repeat", "while"]]

/-- What is left does not go on with a word. -/
def Apart (s : List Char) : Prop := ∀ c ∈ s.head?, isWordChar c = false

/-- Words stand between two cursors, with blanks between them, and the last of them ends there. -/
inductive Stand : List String → Cursor → Cursor → Prop
  | last {w p s} : Apart s → Stand [w] ⟨p, w.toList ++ s⟩ ⟨p.afterAll w.toList, s⟩
  | more {w ws p b s stop} : Blanks b → Stand ws ⟨(p.afterAll w.toList).afterAll b, s⟩ stop → Stand (w :: ws) ⟨p,
    w.toList ++ (b ++ s)⟩ stop

def IsWord (w : String) : Prop := w.toList.head?.any isLetter = true ∧ w.toList.all isWordChar = true

instance (w : String) : Decidable (IsWord w) := inferInstanceAs (Decidable (_ ∧ _))

variable {p : Position} {b s : List Char} {n : Nat} {w phrase : String} {cur stop : Cursor}

theorem Blanks.apart (hb : Blanks b) : Apart (b ++ s) := by
  obtain ⟨c, b', rfl⟩ := exists_cons_of_ne_nil hb.ne_nil
  rintro d ⟨⟩
  rcases space_or_tab (hb.blank c mem_cons_self) with rfl | rfl <;> rfl

theorem takeWhile_word (hw : IsWord w) (hs : Apart s) :
    (Cursor.mk p (w.toList ++ s)).takeWhile isWordChar = (w.toList, ⟨p.afterAll w.toList, s⟩) := by
  have hall := all_eq_true.1 hw.2
  rw [takeWhile_cursor_append hs, takeWhile_eq_self_iff.2 hall, dropWhile_eq_nil_iff.2 hall]
  rfl

theorem extendPhrase_word (hb : Blanks b) (hw : IsWord w) (hs : Apart s) :
    extendPhrase (n + 1) phrase ⟨p, b ++ (w.toList ++ s)⟩ =
      if keywords.contains (phrase ++ " " ++ w) then
        .ok (some (phrase ++ " " ++ w, ⟨(p.afterAll b).afterAll w.toList, s⟩))
      else extendPhrase n (phrase ++ " " ++ w) ⟨(p.afterAll b).afterAll w.toList, s⟩ := by
  obtain ⟨c, hhead, hc⟩ := (Option.any_eq_true _ _).1 hw.1
  have hcurrent : (w.toList ++ s).head? = some c := by rw [head?_append, hhead]; rfl
  have hstop : ∀ d ∈ (w.toList ++ s).head?, isSpace d = false := by
    rintro d hd
    cases hcurrent.symm.trans hd
    refine Bool.eq_false_iff.2 fun h => ?_
    rcases space_or_tab h with rfl | rfl <;> cases hc
  rw [extendPhrase, takeWhile_cursor_append hstop, takeWhile_eq_self_iff.2 hb.blank,
    dropWhile_eq_nil_iff.2 hb.blank]
  dsimp only [nil_append, current?]
  rw [hcurrent, takeWhile_word hw hs, String.ofList_toList]
  exact if_pos hc

/-- After a word, blanks and another word stand, or no word is found. -/
theorem word_or_none (hs : Apart s) (hl : s.getLast? = some '\n') :
    (∃ b w r, s = b ++ (w.toList ++ r) ∧ Blanks b ∧ IsWord w ∧ Apart r) ∨
      ∀ n phrase p, extendPhrase (n + 1) phrase ⟨p, s⟩ = .ok none := by
  have hsplit := takeWhile_append_dropWhile (p := isSpace) (l := s)
  cases hd : s.dropWhile isSpace with
  | nil => cases dropWhile_eq_nil_iff.1 hd _ (mem_of_getLast? hl)
  | cons c cs =>
    by_cases hc : isLetter c = true
    · refine .inl ⟨s.takeWhile isSpace, .ofList ((c :: cs).takeWhile isWordChar), (c :: cs).dropWhile isWordChar,
        ?_, ⟨fun hnil => ?_, all_takeWhile⟩, ?_, fun d => head_dropWhile⟩
      · rw [String.toList_ofList, takeWhile_append_dropWhile, ← hd, hsplit]
      · -- without blanks the first word would go on
        rw [hnil, nil_append, hd] at hsplit
        have := hs c (by rw [← hsplit]; rfl)
        rw [isWordChar_of_isLetter hc] at this
        cases this
      · rw [IsWord, String.toList_ofList, takeWhile_cons_of_pos (isWordChar_of_isLetter hc)]
        exact ⟨hc, all_eq_true.2 (forall_mem_cons.2 ⟨isWordChar_of_isLetter hc, all_takeWhile⟩)⟩
    · refine .inr fun n phrase p => ?_
      have hcurrent : ((Cursor.mk p s).takeWhile isSpace).2.current? = some c := congrArg List.head? hd
      rw [extendPhrase, hcurrent]
      exact if_neg hc

theorem IsWord.line (hw : IsWord w) : '\n' ∉ w.toList := fun h => by cases all_eq_true.1 hw.2 _ h

theorem getLast_rest {x : List Char} (hx : '\n' ∉ x) (hl : (x ++ s).getLast? = some '\n') : s.getLast? = some '\n' := by
  rw [getLast?_append] at hl
  cases hs : s.getLast? with
  | some c => rwa [hs] at hl
  | none =>
    rw [hs] at hl
    exact absurd (mem_of_getLast? hl) hx

/-- Words that make a keyword are those of a phrase. -/
theorem mem_phrases (hw : ∀ w ∈ ws, IsWord w) (hlen : 1 < ws.length) (h : " ".intercalate ws ∈ keywords) :
    ws ∈ phrases := by
  have hall : ∀ k ∈ keywords, 1 < (k.toList.splitOn ' ').length →
      (k.toList.splitOn ' ').map String.ofList ∈ phrases := by
    decide +kernel
  have hsplit : (" ".intercalate ws).toList.splitOn ' ' = ws.map String.toList := by
    rw [String.toList_intercalate]
    refine splitOn_intercalate ' ' (fun l hl hblank => ?_) (by rintro h; simp_all)
    obtain ⟨w, hmem, rfl⟩ := mem_map.1 hl
    cases all_eq_true.1 (hw w hmem).2 _ hblank
  have := hall _ h
  rw [hsplit] at this
  simpa using this (by simpa using hlen)

theorem intercalate_concat (h : ws ≠ []) : " ".intercalate (ws ++ [w]) = " ".intercalate ws ++ " " ++ w := by
  induction ws with
  | nil => exact absurd rfl h
  | cons v ws ih =>
    cases ws with
    | nil => simp
    | cons u ws => simp_all [String.append_assoc]

/-- More words stand there and make a keyword, or the look at the next words comes to nothing. -/
theorem stand_or_none (hws : ∀ w ∈ ws, IsWord w) (hne : ws ≠ []) (hs : Apart s)
    (hl : s.getLast? = some '\n') : extendPhrase n (" ".intercalate ws) ⟨p, s⟩ = .ok none ∨
      ∃ b r more stop, Blanks b ∧ s = b ++ r ∧ Stand more ⟨p.afterAll b, r⟩ stop ∧ ws ++ more ∈ phrases := by
  induction n generalizing ws p s with
  | zero => exact .inl rfl
  | succ n ih =>
    rcases word_or_none hs hl with ⟨b, w, r, rfl, hb, hw, hr⟩ | hnone
    · have hws' : ∀ w' ∈ ws ++ [w], IsWord w' := forall_mem_append.2 ⟨hws, forall_mem_singleton.2 hw⟩
      rw [extendPhrase_word hb hw hr, ← intercalate_concat hne]
      split
      · next hkey =>
        have hlen : 1 < (ws ++ [w]).length := by
          have := length_pos_iff.2 hne
          rw [length_append]
          exact Nat.succ_lt_succ this
        exact .inr ⟨b, _, [w], _, hb, rfl, .last hr, mem_phrases hws' hlen (contains_iff_mem.1 hkey)⟩
      · have hblank : '\n' ∉ b := fun h => by cases hb.blank _ h
        refine (ih hws' (by simp) hr (getLast_rest hw.line (getLast_rest hblank hl))).imp_right ?_
        rintro ⟨b', r, more, stop, hb', rfl, hstand, hq⟩
        rw [append_assoc] at hq
        exact ⟨b, _, w :: more, stop, hb, rfl, .more hb' hstand, hq⟩
    · exact .inl (hnone n _ p)

/-- A word that can begin a keyword of several words, where the keyword is found. -/
theorem scanWord_extended (hw : IsWord w) (hs : Apart s) (hstart : w ∈ phraseStarts)
    (h : extendPhrase 2 w ⟨p.afterAll w.toList, s⟩ = .ok (some (phrase, stop))) :
    scanWord ⟨p, w.toList ++ s⟩ = .ok (.token ⟨.keyword, .text phrase, p, stop.pos⟩, stop) := by
  have hr : ¬ w = "r" := by
    rintro rfl
    exact absurd hstart (by decide)
  rw [scanWord, takeWhile_word hw hs]
  dsimp only
  rw [String.ofList_toList, if_neg fun hregex => hr hregex.1, if_pos (contains_iff_mem.2 hstart), h]

/-- Where the words of a phrase stand, the phrase is read. -/
theorem scanWord_of_stand (hws : ws ∈ phrases) (h : Stand ws cur stop) :
    scanWord cur = .ok (.token ⟨.keyword, .text (" ".intercalate ws), cur.pos, stop.pos⟩, stop) := by
  simp only [phrases, mem_cons, not_mem_nil, or_false] at hws
  rcases hws with rfl | rfl | rfl
  · obtain _ | ⟨hb, _ | ⟨hb', ⟨hs⟩ | ⟨-, ⟨⟩⟩⟩⟩ := h
    refine scanWord_extended (by decide) hb.apart (by decide) ?_
    rw [extendPhrase_word hb (by decide) hb'.apart, if_neg (by decide), extendPhrase_word hb' (by decide) hs,
      if_pos (by decide)]
    rfl
  all_goals
    obtain _ | ⟨hb, ⟨hs⟩ | ⟨-, ⟨⟩⟩⟩ := h
    refine scanWord_extended (by decide) hb.apart (by decide) ?_
    rw [extendPhrase_word hb (by decide) hs, if_pos (by decide)]
    rfl

/-- The text goes on with the letter of a pattern and an opening quote. -/
def OpensPattern (s : List Char) : Prop := ∃ quote body, s = 'r' :: quote :: body ∧ (quote = '"' ∨ quote = '\'')

/-- What a word comes to where no phrase stands: the word alone, unless it opens a pattern. -/
theorem scanWord_of_none (hw : IsWord w) (hs : Apart s) (h : extendPhrase 2 w ⟨p.afterAll w.toList, s⟩ = .ok none) :
    OpensPattern (w.toList ++ s) ∧ (∀ t stop, scanWord ⟨p, w.toList ++ s⟩ = .ok (.token t, stop) → t.kind = .regex) ∨
    scanWord ⟨p, w.toList ++ s⟩ = .ok (.token ⟨if w ∈ keywords then .keyword else .identifier, .text w, p,
      p.afterAll w.toList⟩, ⟨p.afterAll w.toList, s⟩) := by
  unfold scanWord
  rw [takeWhile_word hw hs]
  dsimp only
  rw [String.ofList_toList]
  simp only [contains_iff_mem]
  split
  · next hregex =>
    obtain ⟨rfl, hquote⟩ := hregex
    refine .inl ⟨?_, fun t stop hscan => ?_⟩
    · rcases hquote with hq | hq <;> obtain ⟨body, rfl⟩ := head?_eq_some_iff.1 hq
      · exact ⟨_, body, rfl, .inl rfl⟩
      · exact ⟨_, body, rfl, .inr rfl⟩
    · unfold scanRegex at hscan
      grind
  · split
    · rw [h]
      exact .inr rfl
    · exact .inr rfl

/-- Where a word begins in a text that ends with a line end, a keyword of several words is read exactly if its words
stand there, and then the cursor is right after the last of them. Everywhere else, unless the letter of a pattern
stands there, the first word is read alone, and the cursor is right after it. -/
theorem scanWord_exact (source : Source) (before : List Char) (c : Char) (s : List Char)
    (htext : source.text.toList = before ++ c :: s) (hend : source.text.toList.getLast? = some '\n')
    (hc : isLetter c = true) :
    let cur : Cursor := ⟨(Position.start source).afterAll before, c :: s⟩
    (∀ ws ∈ phrases, ∀ t stop, scanWord cur = .ok (.token t, stop) ∧ t.kind = .keyword ∧
      t.value = .text (" ".intercalate ws) ↔
      Stand ws cur stop ∧ t = ⟨.keyword, .text (" ".intercalate ws), cur.pos, stop.pos⟩) ∧
    ((∀ ws ∈ phrases, ∀ stop, ¬Stand ws cur stop) → ¬OpensPattern cur.rest →
      ∃ word stop, IsWord word ∧ cur.Over word.toList stop ∧ Apart stop.rest ∧ stop.pos.Canonical source.text.toList ∧
        scanWord cur = .ok (.token ⟨if word ∈ keywords then .keyword else .identifier, .text word, cur.pos,
          stop.pos⟩, stop)) := by
  intro cur
  obtain ⟨w, r, hcons, hw, hr⟩ : ∃ (w : String) (r : List Char), c :: s = w.toList ++ r ∧ IsWord w ∧ Apart r := by
    refine ⟨.ofList (c :: s.takeWhile isWordChar), s.dropWhile isWordChar, ?_, ?_, fun d =>
      head_dropWhile⟩
    · rw [String.toList_ofList, cons_append, takeWhile_append_dropWhile]
    · rw [IsWord, String.toList_ofList]
      exact ⟨hc, all_eq_true.2 (forall_mem_cons.2 ⟨isWordChar_of_isLetter hc, all_takeWhile⟩)⟩
  have hcur : cur = ⟨cur.pos, w.toList ++ r⟩ := by rw [← hcons]
  have hl : r.getLast? = some '\n' := by
    rw [htext, getLast?_append_of_ne_nil _ (cons_ne_nil c s), hcons] at hend
    exact getLast_rest hw.line hend
  have hstop : (cur.pos.afterAll w.toList).Canonical source.text.toList := by
    rw [htext, hcons, ← append_assoc, ← Position.afterAll_append]
    exact Position.canonical_afterAll source (before ++ w.toList) r
  have hcases : (∃ ws ∈ phrases, ∃ stop, Stand ws cur stop) ∨
      extendPhrase 2 w ⟨cur.pos.afterAll w.toList, r⟩ = .ok none := by
    refine (stand_or_none (forall_mem_singleton.2 hw) (cons_ne_nil w []) hr hl).symm.imp_left ?_
    rintro ⟨b, s', more, stop, hb, rfl, hstand, hws⟩
    exact ⟨w :: more, hws, stop, hcur ▸ .more hb hstand⟩
  rw [hcur]
  refine ⟨fun ws hws t stop => ⟨?_, ?_⟩, fun hno hpattern => ?_⟩
  · rintro ⟨hscan, hkind, hvalue⟩
    rcases hcases with ⟨ws', hws', stop', hstand⟩ | hnone
    · rw [← hcur, scanWord_of_stand hws' hstand] at hscan
      cases hscan
      have hphrase : ∀ ws ∈ phrases, ∀ ws' ∈ phrases, " ".intercalate ws' = " ".intercalate ws → ws' = ws := by decide
      obtain rfl := hphrase ws hws ws' hws' (Scalar.text.inj hvalue)
      exact ⟨hcur ▸ hstand, rfl⟩
    · rcases scanWord_of_none hw hr hnone with ⟨-, hregex⟩ | hplain
      · rw [hregex t stop hscan] at hkind
        cases hkind
      · rw [hplain] at hscan
        cases hscan
        -- a single word has no blank, as every keyword of several words has
        have hblank : ∀ ws ∈ phrases, ' ' ∈ (" ".intercalate ws).toList := by decide
        have := hblank ws hws
        rw [← Scalar.text.inj hvalue] at this
        cases all_eq_true.1 hw.2 _ this
  · rintro ⟨hstand, rfl⟩
    exact ⟨scanWord_of_stand hws hstand, rfl, rfl⟩
  · rcases hcases with ⟨ws, hws, stop, hstand⟩ | hnone
    · exact (hno ws hws stop (hcur ▸ hstand)).elim
    · rcases scanWord_of_none hw hr hnone with ⟨hopens, -⟩ | hplain
      · exact (hpattern hopens).elim
      · exact ⟨w, ⟨cur.pos.afterAll w.toList, r⟩, hw, ⟨rfl, rfl⟩, hr, hstop, hplain⟩

/-- Blanks of any kind may stand between the words of a keyword. -/
theorem scanWord_exact_as :
    ∃ stop, scanWord ⟨.start ⟨"main", "as\t long  as x\n"⟩, 'a' :: "s\t long  as x\n".toList⟩ =
      .ok (.token ⟨.keyword, .text "as long as", .start ⟨"main", "as\t long  as x\n"⟩, stop⟩,
        ⟨stop, " x\n".toList⟩) := by
  have h := (scanWord_exact ⟨"main", "as\t long  as x\n"⟩ [] 'a' "s\t long  as x\n".toList (by decide) (by decide)
    (by decide)).1 ["as", "long", "as"] (by decide)
  have hstand (p : Position) : ∃ stop, Stand ["as", "long", "as"] ⟨p, 'a' :: "s\t long  as x\n".toList⟩
      ⟨stop, " x\n".toList⟩ :=
    ⟨_, .more (b := "\t ".toList) (by decide) (.more (b := "  ".toList) (by decide)
      (.last (by decide : Blanks [' ']).apart))⟩
  obtain ⟨stop, hstand⟩ := hstand (.start ⟨"main", "as\t long  as x\n"⟩)
  exact ⟨stop, ((h _ _).2 ⟨hstand, rfl⟩).1⟩

end Utterance.Token

import Utterance.Proofs.ScanFaults

/-!
# Quoted literals

Between the quotes of a text, a backslash before a character changes what that stands for. Whatever is written there
with its backslashes and quotes escaped, and with some of its line ends and tabs escaped as well (`Escapes`), is read
back as it was (`string_literal_decodes`).

Between the quotes of a pattern nothing is changed. A quote closes the pattern unless a backslash stands before it
(`ClosesAt`), and the first one that does is where it ends (`pattern_literal_raw`).
-/

namespace Utterance.Token

open List

/-- A text, and how it can be written between quotes. -/
inductive Escapes : List Char → List Char → Prop
  | nil : Escapes [] []
  | plain {c s e} : c ≠ '"' → c ≠ '\\' → Escapes s e → Escapes (c :: s) (c :: e)
  | quote {s e} : Escapes s e → Escapes ('"' :: s) ('\\' :: '"' :: e)
  | backslash {s e} : Escapes s e → Escapes ('\\' :: s) ('\\' :: '\\' :: e)
  | newline {s e} : Escapes s e → Escapes ('\n' :: s) ('\\' :: 'n' :: e)
  | tab {s e} : Escapes s e → Escapes ('\t' :: s) ('\\' :: 't' :: e)

namespace Escapes

variable {s e : List Char}

theorem exists_escapes (s : List Char) : ∃ e, Escapes s e := by
  induction s with
  | nil => exact ⟨[], .nil⟩
  | cons c s ih =>
    obtain ⟨e, he⟩ := ih
    by_cases hq : c = '"'
    · subst hq
      exact ⟨_, .quote he⟩
    · by_cases hb : c = '\\'
      · subst hb
        exact ⟨_, .backslash he⟩
      · exact ⟨_, .plain hq hb he⟩

theorem self (hq : '"' ∉ s) (hb : '\\' ∉ s) : Escapes s s := by
  induction s with
  | nil => exact .nil
  | cons c s ih =>
    simp only [mem_cons, not_or] at hq hb
    exact .plain (Ne.symm hq.1) (Ne.symm hb.1) (ih hq.2 hb.2)

theorem stringBody (h : Escapes s e) (rest : List Char) :
    stringBody false (e ++ '"' :: rest) = (s, e, '"' :: rest) := by
  -- the two characters of an escape are read one after the other
  have escaped (c : Char) {s e : List Char} (ih : Token.stringBody false (e ++ '"' :: rest) = (s, e, '"' :: rest)) :
      Token.stringBody false ('\\' :: c :: e ++ '"' :: rest) = (unescape c :: s, '\\' :: c :: e, '"' :: rest) := by
    rw [cons_append, cons_append, Token.stringBody, if_neg (by decide), if_pos rfl, Token.stringBody, ih]
  induction h with
  | nil => rfl
  | plain hq hb _ ih => rw [cons_append, Token.stringBody, if_neg hq, if_neg hb, ih]
  | quote _ ih => exact escaped '"' ih
  | backslash _ ih => exact escaped '\\' ih
  | newline _ ih => exact escaped 'n' ih
  | tab _ ih => exact escaped 't' ih

theorem scanString (h : Escapes s e) (p : Position) (rest : List Char) :
    scanString ⟨p, '"' :: e ++ '"' :: rest⟩ =
      (⟨.string, .text (String.ofList s), p, p.afterAll ('"' :: e ++ ['"'])⟩,
        ⟨p.afterAll ('"' :: e ++ ['"']), rest⟩) := by
  have hin : (Cursor.mk p ('"' :: e ++ '"' :: rest)).next = ⟨p.after '"', e ++ '"' :: rest⟩ := rfl
  have hpos : ((p.after '"').afterAll e).after '"' = p.afterAll ('"' :: e ++ ['"']) := by
    rw [Position.afterAll_concat]
    rfl
  unfold Token.scanString
  rw [hin]
  dsimp only
  rw [h.stringBody, ← hpos]
  rfl

end Escapes

/-- Every text can be written with its quotes and backslashes escaped. However that is done, it is read as a token
with the text as its value, from the opening quote on and up to the index after the closing one, whatever comes after
it; and the literal alone is scanned as this token and the end of the text. -/
theorem string_literal_decodes (s : String) : (∃ e : String, Escapes s.toList e.toList) ∧
    ∀ e : String, Escapes s.toList e.toList →
      (∀ (p : Position) (rest : List Char), ∃ stop : Position, stop.idx = p.idx + (e.toList.length + 2) ∧
        scanString ⟨p, '"' :: e.toList ++ '"' :: rest⟩ = (⟨.string, .text s, p, stop⟩, ⟨stop, rest⟩)) ∧
      ∀ name, ∃ stop : Position, stop.idx = e.toList.length + 2 ∧ stop.Canonical ("\"" ++ e ++ "\"").toList ∧
        scan ⟨name, "\"" ++ e ++ "\""⟩ = .ok
          [.token ⟨.string, .text s, .start ⟨name, "\"" ++ e ++ "\""⟩, stop⟩, .token (mark .eof stop)] := by
  obtain ⟨e₀, he₀⟩ := Escapes.exists_escapes s.toList
  refine ⟨⟨String.ofList e₀, by rwa [String.toList_ofList]⟩, fun e h => ?_⟩
  have hidx (p : Position) : (p.afterAll ('"' :: e.toList ++ ['"'])).idx = p.idx + (e.toList.length + 2) := by
    rw [Position.afterAll_idx]
    simp
    omega
  have hscan (p : Position) (rest : List Char) := h.scanString p rest
  simp only [String.ofList_toList] at hscan
  refine ⟨fun p rest => ⟨_, hidx p, hscan p rest⟩, fun name => ?_⟩
  have htext : ("\"" ++ e ++ "\"").toList = '"' :: e.toList ++ ['"'] := by simp
  have hcur : Cursor.start ⟨name, "\"" ++ e ++ "\""⟩ = ⟨.start ⟨name, "\"" ++ e ++ "\""⟩,
      '"' :: e.toList ++ '"' :: []⟩ := by
    rw [Cursor.start, htext]
  let p := Position.start ⟨name, "\"" ++ e ++ "\""⟩
  have hcanonical := Position.canonical_afterAll ⟨name, "\"" ++ e ++ "\""⟩ ('"' :: e.toList ++ ['"']) []
  rw [append_nil, ← htext] at hcanonical
  refine ⟨p.afterAll ("\"" ++ e ++ "\"").toList, ?_, hcanonical, ?_⟩
  · rw [htext, hidx]
    exact Int.zero_add _
  · have hstep (cur : Cursor) : step none cur '"' = .ofToken (scanString cur) := rfl
    rw [scan_eq, hcur, scanRest_cons rfl, hstep, hscan, htext, Step.ofToken, Step.followedBy, scanRest_nil rfl]
    rfl

/-- A text with a quote, a backslash, two line ends and a tab, of which one line end and the tab are escaped. -/
theorem string_literal_decodes_mixed :
    Escapes "a\"\\\n\n\t".toList "a\\\"\\\\\n\\n\\t".toList ∧
    ∃ stop : Position, stop.idx = 12 ∧ scan ⟨"main", "\"" ++ "a\\\"\\\\\n\\n\\t" ++ "\""⟩ = .ok
      [.token ⟨.string, .text "a\"\\\n\n\t", .start ⟨"main", "\"" ++ "a\\\"\\\\\n\\n\\t" ++ "\""⟩, stop⟩,
        .token (mark .eof stop)] := by
  have h : Escapes "a\"\\\n\n\t".toList "a\\\"\\\\\n\\n\\t".toList :=
    .plain (by decide) (by decide) (.quote (.backslash (.plain (by decide) (by decide) (.newline (.tab .nil)))))
  obtain ⟨stop, hidx, -, hscan⟩ := ((string_literal_decodes _).2 _ h).2 "main"
  exact ⟨h, stop, hidx, hscan⟩

/-- After an opening quote, a quote stands at an index that closes the pattern: no backslash stands right before
it. -/
def ClosesAt (quote : Char) (s : List Char) (k : Nat) : Prop := s[k]? = some quote ∧ (k = 0 ∨ s[k - 1]? ≠ some '\\')

instance (quote : Char) (s : List Char) (k : Nat) : Decidable (ClosesAt quote s k) :=
  inferInstanceAs (Decidable (_ ∧ _))

/-- The same after any character; `escaped` says whether that is a backslash. -/
def ClosesAfter (quote : Char) (escaped : Bool) (s : List Char) (k : Nat) : Prop :=
  s[k]? = some quote ∧ if k = 0 then escaped = false else s[k - 1]? ≠ some '\\'

section

variable {quote : Char} {escaped : Bool} {s : List Char} {k : Nat}

theorem closesAfter_false : ClosesAfter quote false s k ↔ ClosesAt quote s k := by
  unfold ClosesAfter ClosesAt
  by_cases hk : k = 0 <;> simp [hk]

theorem closesAfter_cons {c : Char} :
    ClosesAfter quote escaped (c :: s) (k + 1) ↔ ClosesAfter quote (c == '\\') s k := by
  unfold ClosesAfter
  cases k <;> simp

theorem closesAfter_zero {c : Char} : ClosesAfter quote escaped (c :: s) 0 ↔ c = quote ∧ !escaped := by
  simp [ClosesAfter]

/-- A pattern is read up to the first quote that closes it. -/
theorem regexBody_of_closes (h : ClosesAfter quote escaped s k) (hfirst : ∀ j < k, ¬ClosesAfter quote escaped s j) :
    regexBody quote escaped s = (s.take k, s.drop k) := by
  induction s generalizing escaped k with
  | nil => cases h.1
  | cons c s ih =>
    rw [regexBody]
    cases k with
    | zero => exact if_pos (closesAfter_zero.1 h)
    | succ k =>
      have hzero := mt closesAfter_zero.2 (hfirst 0 (by omega))
      have hrest := ih (closesAfter_cons.1 h) fun j hj hc => hfirst (j + 1) (by omega) (closesAfter_cons.2 hc)
      rw [if_neg hzero, hrest]
      rfl

/-- A pattern that no quote closes is read up to the end. -/
theorem regexBody_of_open (h : ∀ k, ¬ClosesAfter quote escaped s k) : regexBody quote escaped s = (s, []) := by
  induction s generalizing escaped with
  | nil => rfl
  | cons c s ih =>
    have hrest := ih fun k hc => h (k + 1) (closesAfter_cons.2 hc)
    rw [regexBody, if_neg (mt closesAfter_zero.2 (h 0)), hrest]

theorem first_closesAt (h : ∃ k, ClosesAt quote s k) : ∃ k, ClosesAt quote s k ∧ ∀ j < k, ¬ClosesAt quote s j := by
  classical
  exact ⟨Nat.find h, Nat.find_spec h, fun j hj => Nat.find_min h hj⟩

end

section

variable {p : Position} {quote : Char} {body : List Char} {last : Option Token}

theorem step_closed (hq : quote = '"' ∨ quote = '\'') {k : Nat} (hk : ClosesAt quote body k)
    (hfirst : ∀ j < k, ¬ClosesAt quote body j) :
    ∃ stop : Position, stop.idx = p.idx + (k + 3) ∧ step last ⟨p, 'r' :: quote :: body⟩ 'r' =
      .lexeme (.token ⟨.regex, .text (String.ofList (body.take k)), p, stop⟩) ⟨stop, body.drop (k + 1)⟩ := by
  have hlt : k < body.length := (List.getElem?_eq_some_iff.1 hk.1).1
  have hbody : regexBody quote false body = (body.take k, quote :: body.drop (k + 1)) := by
    rw [regexBody_of_closes (closesAfter_false.2 hk) fun j hj => mt closesAfter_false.1 (hfirst j hj),
      List.drop_eq_getElem_cons hlt, (List.getElem?_eq_some_iff.1 hk.1).2]
  refine ⟨(((p.after 'r').after quote).afterAll (body.take k)).after quote, ?_, ?_⟩
  · rw [Position.idx_after, Position.afterAll_idx, Position.idx_after, Position.idx_after, length_take]
    omega
  · rw [step_pattern hq, scanRegex_closed hq hbody]
    rfl

theorem step_open (hq : quote = '"' ∨ quote = '\'') (h : ∀ k, ¬ClosesAt quote body k) :
    ∃ (d : Diagnostic) (stop : Position), stop.idx = p.idx + (body.length + 2) ∧ d.start = some p ∧ d.stop = some stop ∧
      step last ⟨p, 'r' :: quote :: body⟩ 'r' = .lexeme (.refused d) ⟨stop, []⟩ := by
  have hbody : regexBody quote false body = (body, []) := regexBody_of_open fun k => mt closesAfter_false.1 (h k)
  refine ⟨.illegalCharacter p (p.afterAll ('r' :: quote :: body)) ("Expected closing " ++ String.singleton quote),
    p.afterAll ('r' :: quote :: body), ?_, rfl, rfl, ?_⟩
  · rw [Position.afterAll_idx]
    simp
    omega
  · rw [step_pattern hq, scanRegex_open hq (by rw [hbody])]
    rfl

end

/-- Wherever a scan meets the word `r` before a quote, it comes to a pattern exactly if a quote after that closes it.
The first such quote ends it: its value is what stands between the two quotes, and the token ends at the index after
the second one. If there is none, the scan comes to a diagnostic from the word to the end of the text, and to nothing
else. -/
theorem pattern_literal_raw {source : Source} {xs : List Lexeme} {last : Option Token} {cur : Cursor} {quote : Char}
    {body : List Char} (hway : ScansTo none (.start source) xs last cur) (hrest : cur.rest = 'r' :: quote :: body)
    (hq : quote = '"' ∨ quote = '\'') :
    source.text.toList.drop cur.pos.idx.toNat = 'r' :: quote :: body ∧
    ((∃ t after, step last cur 'r' = .lexeme (.token t) after ∧ t.kind = .regex) ↔ ∃ k, ClosesAt quote body k) ∧
    (∀ k, ClosesAt quote body k → (∀ j < k, ¬ClosesAt quote body j) →
      ∃ stop : Position, stop.idx = cur.pos.idx + (k + 3) ∧
      step last cur 'r' =
        .lexeme (.token ⟨.regex, .text (String.ofList (body.take k)), cur.pos, stop⟩) ⟨stop, body.drop (k + 1)⟩) ∧
    ((∀ k, ¬ClosesAt quote body k) → ∃ (d : Diagnostic) (stop : Position), d.start = some cur.pos ∧ d.stop = some stop ∧
      stop.idx = source.text.toList.length ∧ scan source = .ok (xs ++ [.refused d, .token (mark .eof stop)])) := by
  obtain ⟨before, hsuffix⟩ := hway.suffix
  have hidx := hway.leads.idx (by rw [hrest]; exact cons_ne_nil _ _)
  obtain ⟨p, rest⟩ := cur
  obtain rfl : rest = 'r' :: quote :: body := hrest
  have htext : source.text.toList = before ++ 'r' :: quote :: body := hsuffix.symm
  have hlength : source.text.toList.length = before.length + (body.length + 2) := by simp [htext]
  have hbefore : p.idx = before.length := by
    simp only [Cursor.start, Position.start, length_cons] at hidx
    omega
  refine ⟨?_, ⟨?_, fun h => ?_⟩, fun k hk hfirst => step_closed hq hk hfirst, fun h => ?_⟩
  · rw [hbefore, htext]
    exact drop_left
  · rintro ⟨t, after, hstep, -⟩
    by_contra hopen
    obtain ⟨d, stop, -, -, -, hrefused⟩ := @step_open p quote body last hq (not_exists.1 hopen)
    cases hstep.symm.trans hrefused
  · obtain ⟨k, hk, hfirst⟩ := first_closesAt h
    obtain ⟨stop, -, hstep⟩ := @step_closed p quote body last hq k hk hfirst
    exact ⟨_, _, hstep, rfl⟩
  · obtain ⟨d, stop, hstop, hd, hd', hstep⟩ := @step_open p quote body last hq h
    refine ⟨d, stop, hd, hd', by omega, ?_⟩
    rw [scan_eq, hway.scanRest, scanRest_cons rfl, hstep, Step.followedBy, scanRest_nil rfl]
    rfl

/-- A pattern with an escaped quote and two backslashes, and one whose only other quote comes after a backslash. -/
theorem pattern_literal_raw_escaped :
    (∃ (stop : Position) (after : Cursor), stop.idx = 9 ∧ step none (.start ⟨"main", "r\"a\\\"\\\\b\"; \""⟩) 'r' =
      .lexeme (.token ⟨.regex, .text "a\\\"\\\\b", .start ⟨"main", "r\"a\\\"\\\\b\"; \""⟩, stop⟩) after) ∧
    ∃ (d : Diagnostic) (stop : Position), d.stop = some stop ∧ stop.idx = 5 ∧
      scan ⟨"main", "r'a\\'"⟩ = .ok [.refused d, .token (mark .eof stop)] := by
  constructor
  · have hrest : (Cursor.start ⟨"main", "r\"a\\\"\\\\b\"; \""⟩).rest =
        'r' :: '"' :: ['a', '\\', '"', '\\', '\\', 'b', '"', ';', ' ', '"'] := rfl
    obtain ⟨-, -, h, -⟩ := pattern_literal_raw (.here none _) hrest (.inl rfl)
    obtain ⟨stop, hidx, hstep⟩ := h 6 (by decide) (by decide)
    exact ⟨stop, _, hidx, hstep⟩
  · have hrest : (Cursor.start ⟨"main", "r'a\\'"⟩).rest = 'r' :: '\'' :: ['a', '\\', '\''] := rfl
    have hopen : ∀ k < 3, ¬ClosesAt '\'' ['a', '\\', '\''] k := by decide
    obtain ⟨-, -, -, h⟩ := pattern_literal_raw (.here none _) hrest (.inr rfl)
    obtain ⟨d, stop, -, hd, hidx, hscan⟩ := h fun k hk => hopen k (List.getElem?_eq_some_iff.1 hk.1).1 hk
    exact ⟨d, stop, hd, hidx, hscan⟩

end Utterance.Token

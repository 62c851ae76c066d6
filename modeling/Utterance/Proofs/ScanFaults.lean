import Utterance.Proofs.BlankWidth

/-!
# Faults of the scanner

In a text that ends with a line end, every look ahead finds a character: blanks, words and marks end at the latest
where the line ends. So the only fault of a scan is a row of digits that is too long for an integer (`step_sound`,
`scanRest_fault`), and the only lexemes that are no tokens come from patterns that are not closed
(`scanRest_refused`).
-/

namespace Utterance.Token

open List

variable {cur : Cursor} {d : Diagnostic} {last : Option Token} {p : Char → Bool} {quote : Char} {s : List Char}
  {xs : List Lexeme}

/-- What is left of a text, if anything, ends with a line end. -/
def EndsLine (s : List Char) : Prop := ∀ c ∈ s.getLast?, c = '\n'

/-- A text begins with an integer that has more digits than can be read. -/
def LongInteger (digits s : List Char) : Prop :=
  ∃ rest, s = digits ++ rest ∧ (∀ c ∈ digits, c.isDigit = true) ∧ (∀ c ∈ rest.head?, c.isDigit = false ∧ c ≠ '.') ∧
    Fault.digitLimit < digits.length

/-- A text begins with a pattern in which every quote comes after a backslash, so that none closes it. -/
def UnclosedPattern (s : List Char) : Prop :=
  ∃ quote body, s = 'r' :: quote :: body ∧ (quote = '"' ∨ quote = '\'') ∧
    ∀ before after, body = before ++ quote :: after → before.getLast? = some '\\'

namespace EndsLine

variable {s r : List Char} {c : Char}

theorem suffix (h : EndsLine s) (hr : r <:+ s) : EndsLine r := by
  obtain ⟨p, rfl⟩ := hr
  cases r with
  | nil => exact fun c hc => by cases hc
  | cons d r => rwa [EndsLine, getLast?_append_of_ne_nil _ (cons_ne_nil d r)] at h

theorem ne_nil (h : EndsLine (c :: s)) (hc : c ≠ '\n') : s ≠ [] := by
  rintro rfl
  exact hc (h c rfl)

theorem dropWhile_ne_nil (h : EndsLine s) (hs : s ≠ []) (hp : p '\n' = false) : s.dropWhile p ≠ [] := by
  rw [ne_eq, dropWhile_eq_nil_iff]
  intro hall
  obtain ⟨c, hc⟩ : ∃ c, s.getLast? = some c := ⟨_, getLast?_eq_some_getLast hs⟩
  obtain rfl := h c hc
  have := hall _ (mem_of_getLast? hc)
  rw [hp] at this
  cases this

theorem dropWhile (h : EndsLine s) : EndsLine (s.dropWhile p) := h.suffix (dropWhile_suffix p)

end EndsLine

/-- What a step comes to where the text ends with a line end. -/
def Step.Sound (cur : Cursor) : Step → Prop
  | .lexeme (.refused _) _ => UnclosedPattern cur.rest
  | .refuse (.fault stuck) => ∃ digits, LongInteger digits cur.rest ∧ stuck.fault = .tooManyDigitsIn digits.length
  | _ => True

section

variable {last : Option Token} {cur : Cursor} {c : Char} {cs : List Char}

theorem head_dropWhile (h : c ∈ (s.dropWhile p).head?) : p c = false := by
  have := head?_dropWhile_not p s
  rw [h] at this
  simpa using this

theorem numeral_cases (s : List Char) :
    (∃ point places rest, numeral s = (s.takeWhile Char.isDigit, point :: places, rest)) ∨
    (∀ c ∈ (s.dropWhile Char.isDigit).head?, c ≠ '.') ∧
      numeral s = (s.takeWhile Char.isDigit, [], s.dropWhile Char.isDigit) := by
  unfold numeral
  split
  · exact .inl ⟨_, _, _, rfl⟩
  · next rest h =>
    refine .inr ⟨fun c hc hpoint => ?_, rfl⟩
    obtain ⟨ds, hds⟩ := head?_eq_some_iff.1 hc
    exact h ds (by rw [hds, hpoint])

theorem sound_scanNumber (hr : cur.rest = c :: cs) (hc : c.isDigit = true) :
    Step.Sound cur (.ofScanned (scanNumber cur)) := by
  have hwhole : (cur.rest.takeWhile Char.isDigit).isEmpty = false := by
    rw [hr, takeWhile_cons_of_pos hc]
    rfl
  unfold scanNumber
  rcases numeral_cases cur.rest with ⟨point, places, rest, hn⟩ | ⟨hpoint, hn⟩
  · rw [hn]
    dsimp only
    rw [decimalValue, hwhole]
    trivial
  · rw [hn]
    dsimp only
    rw [integerValue, hwhole]
    by_cases hlong : Fault.digitLimit < (cur.rest.takeWhile Char.isDigit).length
    · rw [if_neg (by decide), if_pos hlong]
      exact ⟨_, ⟨_, takeWhile_append_dropWhile.symm, fun d hd => mem_takeWhile_imp hd,
        fun d hd => ⟨head_dropWhile hd, hpoint d hd⟩, hlong⟩, rfl⟩
    · rw [if_neg (by decide), if_neg hlong]
      trivial

/-- Where a pattern is not closed, all its quotes come after backslashes. -/
theorem regexBody_open {escaped : Bool} {before after : List Char}
    (h : (regexBody quote escaped s).2 = []) (hs : s = before ++ quote :: after) :
    before.getLast?.elim escaped (· == '\\') = true := by
  induction before generalizing escaped s with
  | nil =>
    subst hs
    rw [nil_append, regexBody] at h
    split at h
    · cases h
    · next hc => simpa using hc
  | cons d ds ih =>
    subst hs
    rw [cons_append, regexBody] at h
    split at h
    · cases h
    · have := ih h rfl
      cases ds with
      | nil => exact this
      | cons e es => rwa [getLast?_cons_cons]

theorem unclosed_of_scanRegex {body : List Char} (hr : cur.rest = 'r' :: quote :: body)
    (hq : quote = '"' ∨ quote = '\'') (h : (scanRegex cur).1 = .error d) : UnclosedPattern cur.rest := by
  obtain ⟨p, rest⟩ := cur
  obtain rfl : rest = 'r' :: quote :: body := hr
  have hopen : (regexBody quote false body).2 = [] := by
    refine (regexBody_rest quote false body).resolve_right fun hclosed => ?_
    obtain ⟨es, hes⟩ := head?_eq_some_iff.1 hclosed
    rw [scanRegex_closed hq (show regexBody quote false body = (_, quote :: es) from Prod.ext rfl hes)] at h
    cases h
  refine ⟨quote, body, rfl, hq, fun before after hb => ?_⟩
  have hslash := regexBody_open hopen hb
  cases hlast : before.getLast? with
  | none =>
    rw [hlast] at hslash
    cases hslash
  | some c =>
    rw [hlast] at hslash
    exact congrArg some (by simpa using hslash)

/-- More words are looked for as long as something is left, and at the end of a line there is none. -/
theorem extendPhrase_ok {n : Nat} (phrase : String) (hl : EndsLine cur.rest) (hne : cur.rest ≠ []) :
    ∃ found, extendPhrase n phrase cur = .ok found := by
  induction n generalizing phrase cur with
  | zero => exact ⟨none, rfl⟩
  | succ n ih =>
    have hstart : (cur.takeWhile Cursor.isSpace).2.rest ≠ [] := hl.dropWhile_ne_nil hne (by decide)
    have hline : EndsLine (cur.takeWhile Cursor.isSpace).2.rest := hl.dropWhile
    rw [extendPhrase]
    dsimp only
    split
    · next hnone => exact absurd (head?_eq_none_iff.1 hnone) hstart
    · split
      · split
        · exact ⟨_, rfl⟩
        · exact ih _ hline.dropWhile (EndsLine.dropWhile_ne_nil (p := Cursor.isWordChar) hline hstart (by decide))
      · exact ⟨none, rfl⟩

theorem sound_scanWord (hl : EndsLine cur.rest) (hr : cur.rest = c :: cs) :
    Step.Sound cur (.ofWord (scanWord cur)) := by
  have hne : (cur.takeWhile Cursor.isWordChar).2.rest ≠ [] :=
    EndsLine.dropWhile_ne_nil (p := Cursor.isWordChar) hl (by rw [hr]; exact cons_ne_nil _ _) (by decide)
  unfold scanWord
  dsimp only
  split
  · next hc =>
    obtain ⟨quote, hq, body, hbody⟩ : ∃ quote, (quote = '"' ∨ quote = '\'') ∧
        ∃ body, cur.rest.dropWhile Cursor.isWordChar = quote :: body :=
      hc.2.elim (fun h => ⟨'"', .inl rfl, head?_eq_some_iff.1 h⟩)
        fun h => ⟨'\'', .inr rfl, head?_eq_some_iff.1 h⟩
    have hrest : cur.rest = 'r' :: quote :: body := by
      have hw : cur.rest.takeWhile Cursor.isWordChar = ['r'] := String.ofList_injective hc.1
      rw [← takeWhile_append_dropWhile (p := Cursor.isWordChar) (l := cur.rest), hw, hbody]
      rfl
    cases hscan : scanRegex cur with
    | mk result after =>
      cases result with
      | ok t => trivial
      | error d => exact unclosed_of_scanRegex hrest hq (by rw [hscan])
  · split
    · obtain ⟨found, hf⟩ := @extendPhrase_ok _ 2 (String.ofList (cur.takeWhile Cursor.isWordChar).1) hl.dropWhile hne
      rw [hf]
      cases found <;> trivial
    · trivial

theorem sound_ite {p : Prop} {_ : Decidable p} {x y : Scanned Token} (hx : Step.Sound cur (.ofScanned x))
    (hy : Step.Sound cur (.ofScanned y)) : Step.Sound cur (.ofScanned (if p then x else y)) := by
  split
  · exact hx
  · exact hy

theorem sound_scanLess (hl : EndsLine cs) (hne : cs ≠ []) (hr : cur.rest = c :: cs) :
    Step.Sound cur (.ofScanned (scanLess last cur)) := by
  have hdrop : cur.next.rest.dropWhile Cursor.isSpace ≠ [] := by
    rw [Cursor.next, hr]
    exact hl.dropWhile_ne_nil hne (by decide)
  refine sound_ite trivial (sound_ite trivial (sound_ite trivial ?_))
  split
  · next hnil => exact absurd hnil hdrop
  · trivial

theorem sound_scanGreater (hl : EndsLine cs) (hne : cs ≠ []) (hr : cur.rest = c :: cs) :
    Step.Sound cur (.ofScanned (scanGreater last cur)) := by
  have hrest : cur.next.rest = cs := by rw [Cursor.next, hr]; rfl
  refine sound_ite trivial ?_
  split
  · trivial
  refine sound_ite trivial (sound_ite trivial ?_)
  split
  · next hnil => exact absurd (hrest.symm.trans hnil) hne
  · next d ds hcons =>
    refine sound_ite trivial ?_
    by_cases hd : Cursor.isSpace d = true
    · have hds : ds ≠ [] := by
        rw [hrest] at hcons
        subst hcons
        refine hl.ne_nil ?_
        rintro rfl
        cases hd
      rw [if_pos hd]
      split
      · exact absurd rfl hds
      · refine sound_ite trivial ?_
        -- the unifier must not open the table of letters
        generalize Text.isAlphabetic _ = letter
        exact sound_ite trivial trivial
    · rw [if_neg hd]
      trivial

/-- A step in a text that ends with a line end has no fault but a row of digits that is too long, and finds no lexeme
that is no token but a pattern that is not closed. -/
theorem step_sound (hl : EndsLine cur.rest) (hr : cur.rest = c :: cs) : (step last cur c).Sound cur := by
  have hline : EndsLine cs := hl.suffix (hr ▸ suffix_cons c cs)
  have hne (hc : c ≠ '\n') : cs ≠ [] := EndsLine.ne_nil (hr ▸ hl) hc
  refine @step_elim (fun s _ => s.Sound cur) last last cur cur c
    ?blank ?comment ?number ?word ?string ?pair ?notEquals ?equals ?less ?greater ?mark
  case blank => exact fun _ => trivial
  case comment => exact fun _ => trivial
  case number => exact sound_scanNumber hr
  case word => exact fun _ => sound_scanWord hl hr
  case string => exact fun _ => trivial
  case pair => exact fun _ _ _ _ => trivial
  case notEquals =>
    intro _
    unfold scanNotEquals
    dsimp only
    split <;> trivial
  case equals => exact fun _ => trivial
  case less =>
    rintro rfl
    exact sound_scanLess hline (hne (by decide)) hr
  case greater =>
    rintro rfl
    exact sound_scanGreater hline (hne (by decide)) hr
  case mark =>
    unfold Step.ofMark
    split <;> trivial

end

/-- A fault of a scan is a row of digits that is too long, where the scan comes to. -/
theorem scanRest_fault {stuck : Stuck} (hl : EndsLine cur.rest) (h : scanRest last cur = .error (.fault stuck)) :
    ∃ xs last' cur' digits, ScansTo last cur xs last' cur' ∧ LongInteger digits cur'.rest ∧
      stuck.fault = .tooManyDigitsIn digits.length := by
  obtain ⟨xs, last', cur', c, cs, hway, hr, hs⟩ := ScansTo.of_error h
  have hsound := @step_sound last' _ _ _ (hl.suffix hway.suffix) hr
  rw [hs] at hsound
  obtain ⟨digits, hlong, hf⟩ := hsound
  exact ⟨xs, last', cur', digits, hway, hlong, hf⟩

/-- A lexeme that is no token comes from a pattern that is not closed. -/
theorem scanRest_refused (hl : EndsLine cur.rest) (h : scanRest last cur = .ok xs) (hd : .refused d ∈ xs) :
    ∃ ys zs last' cur', ScansTo last cur ys last' cur' ∧ xs = ys ++ .refused d :: zs ∧ UnclosedPattern cur'.rest := by
  obtain ⟨ys, zs, rfl⟩ := append_of_mem hd
  obtain ⟨last', cur', c, cs, after, hway, hr, hs, -⟩ := ScansTo.of_scanRest h fun _ h => by cases h
  have hsound := @step_sound last' _ _ _ (hl.suffix hway.suffix) hr
  rw [hs] at hsound
  exact ⟨ys, zs, last', cur', hway, rfl, hsound⟩

/-- A scan that comes to a row of digits that is too long ends there with a fault. -/
theorem fault_of_longInteger {last' : Option Token} {cur' : Cursor} {digits : List Char}
    (hway : ScansTo last cur xs last' cur') (hlong : LongInteger digits cur'.rest) :
    ∃ stuck, scanRest last cur = .error (.fault stuck) ∧ stuck.fault = .tooManyDigitsIn digits.length := by
  obtain ⟨rest, hrest, hdigits, hhead, hlimit⟩ := hlong
  have hnumeral : numeral cur'.rest = (digits, [], rest) := by
    rw [hrest, numeral_append hhead]
    unfold numeral
    rw [takeWhile_eq_self_iff.2 hdigits, dropWhile_eq_nil_iff.2 hdigits]
    rfl
  obtain ⟨c, ds, rfl⟩ : ∃ c ds, digits = c :: ds := exists_cons_of_length_pos
    (Nat.lt_of_le_of_lt (Nat.zero_le _) hlimit)
  have hc : c.isDigit = true := hdigits c (mem_cons_self ..)
  have hstep : step last' cur' c = .ofScanned (scanNumber cur') := by
    rw [step, if_neg, if_neg, if_pos hc]
    · rintro rfl
      cases hc
    · intro hspace
      simp only [Cursor.isSpace, Bool.or_eq_true, beq_iff_eq] at hspace
      rcases hspace with rfl | rfl <;> cases hc
  have hnumber : scanNumber cur' = .error ⟨.tooManyDigitsIn (c :: ds).length, cur'.passed (c :: ds) rest⟩ := by
    rw [scanNumber, hnumeral]
    dsimp only
    rw [integerValue, if_neg (by simp), if_pos hlimit]
    rw [append_nil]
  refine ⟨⟨.tooManyDigitsIn (c :: ds).length, cur'.passed (c :: ds) rest⟩, ?_, rfl⟩
  rw [hway.scanRest, scanRest_cons (show cur'.rest = c :: (ds ++ rest) from hrest), hstep, hnumber]
  rfl

end Utterance.Token

import Mathlib.Data.List.TakeWhile
import Utterance.Proofs.Alike
import Utterance.Proofs.Shifting
import Utterance.Proofs.Spelling

/-!
# Steps before an edge

A step of a scan sees little of what follows what it finds. Where it comes to blanks or a line end, it finds the same
whatever stands behind the line end and however wide the blanks are, and at any position (`step_similar`). There are
two exceptions. A step may draw in what follows, or stop because nothing does; and `>`, where it may close a tuple,
looks at the character after a single blank but not after several (`scanGreater_blank`).
-/

namespace Utterance

open Cursor
open List hiding takeWhile

variable {b cs ds z' : List Char} {c quote : Char} {f : Char → Bool} {last last' : Option Token}
  {x x' : Except Stuck (Option (String × Cursor))}

/-- Two lexemes are the same but for positions. -/
inductive Lexeme.Alike : Lexeme → Lexeme → Prop
  | token {t t' : Token} : t.Alike AnyPlace t' → Alike (.token t) (.token t')
  | refused (d d') : Alike (.refused d) (.refused d')

theorem Lexeme.alike_shift (δ : Shift) (x : Lexeme) : x.Alike (x.shift δ) := by
  cases x with
  | token t => exact .token ⟨rfl, rfl, trivial, trivial⟩
  | refused d => exact .refused _ _

namespace Token

/-- A row of spaces and tabs. -/
structure Blanks (b : List Char) : Prop where
  ne_nil : b ≠ []
  blank : ∀ c ∈ b, isSpace c = true

instance (b : List Char) : Decidable (Blanks b) :=
  decidable_of_iff (b ≠ [] ∧ b.all isSpace = true)
    ⟨fun h => ⟨h.1, all_eq_true.1 h.2⟩, fun h => ⟨h.ne_nil, all_eq_true.2 h.blank⟩⟩

theorem space_or_tab (h : isSpace c = true) : c = ' ' ∨ c = '\t' := by
  simpa [isSpace] using h

theorem Blanks.head (h : Blanks b) (t : List Char) : ∃ c cs, b ++ t = c :: cs ∧ isSpace c = true := by
  cases b with
  | nil => exact absurd rfl h.ne_nil
  | cons c cs => exact ⟨c, cs ++ t, rfl, h.blank c (mem_cons_self ..)⟩

theorem Blanks.dropWhile (h : Blanks b) (t : List Char) : (b ++ t).dropWhile isSpace = t.dropWhile isSpace := by
  rw [dropWhile_append, dropWhile_eq_nil_iff.2 h.blank]
  rfl

/-- What follows a text at two places: nothing, a line end, or blanks and then the same. -/
inductive Edge : List Char → List Char → Prop
  | none : Edge [] []
  | ends (z) : Edge [] ('\n' :: z)
  | lines (z z') : Edge ('\n' :: z) ('\n' :: z')
  | blanks {b b' : List Char} (t) : Blanks b → Blanks b' → Edge (b ++ t) (b' ++ t)

def edgeChars : List Char := [' ', '\t', '\n']

namespace Edge

variable {z z' : List Char}

variable (hz : Edge z z')
include hz

theorem head : (∀ c ∈ z.head?, c ∈ edgeChars) ∧ ∀ c ∈ z'.head?, c ∈ edgeChars := by
  have hblank {b : List Char} (hb : Blanks b) (t : List Char) : ∀ c ∈ (b ++ t).head?, c ∈ edgeChars := by
    obtain ⟨d, ds, hd, hs⟩ := hb.head t
    rw [hd]
    rintro c ⟨⟩
    rcases space_or_tab hs with rfl | rfl <;> decide
  cases hz with
  | none => exact ⟨nofun, nofun⟩
  | ends z => exact ⟨nofun, by rintro c ⟨⟩; decide⟩
  | lines z z' => exact ⟨by rintro c ⟨⟩; decide, by rintro c ⟨⟩; decide⟩
  | blanks t hb hb' => exact ⟨hblank hb t, hblank hb' t⟩

theorem nil (h : z' = []) : z = [] := by
  cases hz with
  | none => rfl
  | ends z => rfl
  | lines z z' => cases h
  | blanks t _ hb' => exact absurd (append_eq_nil_iff.1 h).1 hb'.ne_nil

private theorem stops (hf : edgeChars.all (!f ·) = true) :
    (∀ c ∈ z.head?, f c = false) ∧ ∀ c ∈ z'.head?, f c = false := by
  have hchar {c : Char} (hc : c ∈ edgeChars) : f c = false := by simpa using all_eq_true.1 hf c hc
  exact ⟨fun c hc => hchar (hz.head.1 c hc), fun c hc => hchar (hz.head.2 c hc)⟩

theorem head_ne (hc : c ∉ edgeChars) : z.head? ≠ some c ∧ z'.head? ≠ some c :=
  ⟨fun h => hc (hz.head.1 c h), fun h => hc (hz.head.2 c h)⟩

end Edge

/-- Steps from two positions that find the same, as far as positions go, and leave the same before what follows. -/
inductive Step.Similar (p p' : Position) (z z' : List Char) : Step → Step → Prop
  | trivia (stop : Position → Position) (s : List Char) :
    Similar p p' z z' (.trivia ⟨stop p, s ++ z⟩) (.trivia ⟨stop p', s ++ z'⟩)
  | lexeme (x : Position → Lexeme) (stop : Position → Position) (s : List Char) : (∀ q q', (x q).Alike (x q')) →
    Similar p p' z z' (.lexeme (x p) ⟨stop p, s ++ z⟩) (.lexeme (x p') ⟨stop p', s ++ z'⟩)
  | refuse (r r' : Refusal) : Similar p p' z z' (.refuse r) (.refuse r')
  /-- Nothing is said where the first one draws in what follows. -/
  | beyond {s : Step} (s' : Step) {a : Cursor} : s.after? = some a → a.rest.length < z.length → Similar p p' z z' s s'
  /-- Nothing is said where only the first one comes to the end, and stops there or the other one goes on. -/
  | ended {s s' : Step} : z = [] → z' ≠ [] →
    ((∃ r, s = .refuse r) ∨ ∃ a, s'.after? = some a ∧ a.rest.length < z'.length) → Similar p p' z z' s s'

namespace Step.Similar

variable {p p' : Position} {z z' : List Char} {s s' : Step} {x : Lexeme} {a : Cursor}

theorem of_trivia (h : Similar p p' z z' (.trivia a) s') (ha : ¬a.rest.length < z.length)
    (hs' : z = [] → z' ≠ [] → ∀ a', s'.after? = some a' → ¬a'.rest.length < z'.length) :
    ∃ (stop : Position → Position) (r : List Char), a = ⟨stop p, r ++ z⟩ ∧ s' = .trivia ⟨stop p', r ++ z'⟩ := by
  cases h with
  | trivia stop r => exact ⟨stop, r, rfl, rfl⟩
  | beyond _ hs hlt =>
    cases hs
    exact absurd hlt ha
  | ended hz hz' h =>
    obtain ⟨r, ⟨⟩⟩ | ⟨a', ha', hlt⟩ := h
    exact absurd hlt (hs' hz hz' a' ha')

theorem of_lexeme (h : Similar p p' z z' (.lexeme x a) s') (ha : ¬a.rest.length < z.length)
    (hs' : z = [] → z' ≠ [] → ∀ a', s'.after? = some a' → ¬a'.rest.length < z'.length) :
    ∃ (y : Position → Lexeme) (stop : Position → Position) (r : List Char),
      x = y p ∧ (∀ q q', (y q).Alike (y q')) ∧ a = ⟨stop p, r ++ z⟩ ∧
      s' = .lexeme (y p') ⟨stop p', r ++ z'⟩ := by
  cases h with
  | lexeme y stop r hy => exact ⟨y, stop, r, rfl, hy, rfl, rfl⟩
  | beyond _ hs hlt =>
    cases hs
    exact absurd hlt ha
  | ended hz hz' h =>
    obtain ⟨r, ⟨⟩⟩ | ⟨a', ha', hlt⟩ := h
    exact absurd hlt (hs' hz hz' a' ha')

private theorem of_open (h : z ≠ [] → ∃ a, s.after? = some a ∧ a.rest.length < z.length)
    (h' : z' ≠ [] → ∃ a, s'.after? = some a ∧ a.rest.length < z'.length)
    (hnil : z = [] → z' = [] → Similar p p' z z' s s') : Similar p p' z z' s s' := by
  by_cases hz : z = []
  · by_cases hz' : z' = []
    · exact hnil hz hz'
    · exact .ended hz hz' (.inr (h' hz'))
  · obtain ⟨a, ha, hlt⟩ := h hz
    exact .beyond _ ha hlt

end Step.Similar

theorem similar_token {p p' : Position} {z : List Char} {k : Kind} {v : Scalar} {stop after : Position → Position}
    (r : List Char) :
    Step.Similar p p' z z' (.lexeme (.token ⟨k, v, p, stop p⟩) ⟨after p, r ++ z⟩)
      (.lexeme (.token ⟨k, v, p', stop p'⟩) ⟨after p', r ++ z'⟩) :=
  .lexeme (fun q => .token ⟨k, v, q, stop q⟩) after r fun _ _ => .token ⟨rfl, rfl, trivial, trivial⟩

/-! ### Characters before an edge -/

section

variable {z : List Char}

theorem takeWhile_append_of_head {p : Char → Bool} (hz : ∀ c ∈ z.head?, p c = false) (s : List Char) :
    (s ++ z).takeWhile p = s.takeWhile p := by
  induction s with
  | nil =>
    cases z with
    | nil => rfl
    | cons c cs => exact takeWhile_cons_of_neg (by simp [hz c rfl])
  | cons c s ih => simp only [cons_append, takeWhile_cons, ih]

private theorem dropWhile_append_of_head {p : Char → Bool} (hz : ∀ c ∈ z.head?, p c = false) (s : List Char) :
    (s ++ z).dropWhile p = s.dropWhile p ++ z := by
  induction s with
  | nil =>
    cases z with
    | nil => rfl
    | cons c cs => exact dropWhile_cons_of_neg (by simp [hz c rfl])
  | cons c s ih =>
    simp only [cons_append, dropWhile_cons, ih]
    split <;> rfl

theorem numeral_append (hz : ∀ c ∈ z.head?, c.isDigit = false ∧ c ≠ '.') (s : List Char) :
    numeral (s ++ z) = ((numeral s).1, (numeral s).2.1, (numeral s).2.2 ++ z) := by
  have hd : ∀ c ∈ z.head?, c.isDigit = false := fun c hc => (hz c hc).1
  unfold numeral
  rw [takeWhile_append_of_head hd, dropWhile_append_of_head hd]
  cases hs : s.dropWhile Char.isDigit with
  | nil =>
    cases z with
    | nil => rfl
    | cons c cs =>
      split
      · next h => injection h with h; exact absurd h (hz c rfl).2
      · rfl
  | cons c cs =>
    by_cases hc : c = '.'
    · subst hc
      simp only [cons_append, takeWhile_append_of_head hd, dropWhile_append_of_head hd]
    · simp only [cons_append]
      split
      · next h => injection h with h; exact absurd h hc
      · split
        · next h => injection h with h; exact absurd h hc
        · rfl

/-- A text is closed, and what follows changes nothing; or it is not, and goes on with what follows. -/
theorem stringBody_append (escaped : Bool) (s : List Char) :
    (∃ ds, (stringBody escaped s).2.2 = '"' :: ds ∧ ∀ z, stringBody escaped (s ++ z) =
      ((stringBody escaped s).1, (stringBody escaped s).2.1, '"' :: (ds ++ z))) ∨
    ∃ e, ∀ z, (stringBody escaped (s ++ z)).2.2 = (stringBody e z).2.2 := by
  induction s generalizing escaped with
  | nil => exact .inr ⟨escaped, fun z => rfl⟩
  | cons c cs ih =>
    cases escaped with
    | true =>
      rcases ih false with ⟨ds, hr, h⟩ | h
      · exact .inl ⟨ds, hr, fun z => by simp only [cons_append, stringBody, h]⟩
      · exact .inr h
    | false =>
      by_cases hq : c = '"'
      · subst hq
        exact .inl ⟨cs, by simp [stringBody], fun z => by simp [stringBody]⟩
      by_cases hb : c = '\\'
      · subst hb
        rcases ih true with ⟨ds, hr, h⟩ | h
        · exact .inl ⟨ds, by simpa [stringBody] using hr, fun z => by simp [stringBody, h]⟩
        · exact .inr (by simpa [stringBody] using h)
      · rcases ih false with ⟨ds, hr, h⟩ | h
        · exact .inl ⟨ds, by simpa [stringBody, hq, hb] using hr, fun z => by simp [stringBody, hq, hb, h]⟩
        · exact .inr (by simpa [stringBody, hq, hb] using h)

private theorem regexBody_append (quote : Char) (escaped : Bool) (s : List Char) :
    (∃ ds, (regexBody quote escaped s).2 = quote :: ds ∧ ∀ z, regexBody quote escaped (s ++ z) =
      ((regexBody quote escaped s).1, quote :: (ds ++ z))) ∨
    ∃ e, ∀ z, (regexBody quote escaped (s ++ z)).2 = (regexBody quote e z).2 := by
  induction s generalizing escaped with
  | nil => exact .inr ⟨escaped, fun z => rfl⟩
  | cons c cs ih =>
    by_cases hq : c = quote ∧ !escaped
    · obtain ⟨rfl, he⟩ := hq
      exact .inl ⟨cs, by simp [regexBody, he], fun z => by simp [regexBody, he]⟩
    · rcases ih (c == '\\') with ⟨ds, hr, h⟩ | ⟨e, h⟩
      · exact .inl ⟨ds, by rw [regexBody, if_neg hq]; exact hr, fun z => by
          rw [cons_append, regexBody, if_neg hq, h, regexBody, if_neg hq]⟩
      · exact .inr ⟨e, fun z => by rw [cons_append, regexBody, if_neg hq]; exact h z⟩

/-- A bracketed comment is closed, or it goes on with what follows, unless a part of the closing mark stands there. -/
theorem blockComment_append (s : List Char) :
    (∀ z : List Char, z.head? ≠ some '$' → blockComment (s ++ z) = ((blockComment s).1, (blockComment s).2 ++ z)) ∨
    ∀ z : List Char, z.head? ≠ some '$' → (blockComment (s ++ z)).2 = (blockComment z).2 := by
  induction s with
  | nil => exact .inr fun z _ => rfl
  | cons c cs ih =>
    by_cases hclose : c = ']' ∧ ∃ ds, cs = '$' :: ds
    · obtain ⟨rfl, ds, rfl⟩ := hclose
      exact .inl fun z _ => rfl
    have hstep (z : List Char) (hz : z.head? ≠ some '$') :
        blockComment (c :: cs ++ z) = (c :: (blockComment (cs ++ z)).1, (blockComment (cs ++ z)).2) := by
      rw [cons_append, blockComment]
      rintro rest rfl hrest
      cases cs with
      | nil => exact hz (by rw [show z = '$' :: rest from hrest]; rfl)
      | cons d ds =>
        injection hrest with hd _
        exact hclose ⟨rfl, ds, by rw [hd]⟩
    have hself := hstep [] (by simp)
    rw [append_nil, append_nil] at hself
    rcases ih with h | h
    · exact .inl fun z hz => by rw [hstep z hz, hself, h z hz]
    · exact .inr fun z hz => by rw [hstep z hz]; exact h z hz

end

section

variable {z z' : List Char} {p p' : Position} {s : List Char}

theorem takeWhile_cursor_append (hz : ∀ c ∈ z.head?, f c = false) :
    (Cursor.mk p (s ++ z)).takeWhile f = (s.takeWhile f, ⟨p.afterAll (s.takeWhile f), s.dropWhile f ++ z⟩) := by
  simp only [takeWhile, passed, takeWhile_append_of_head hz, dropWhile_append_of_head hz]

theorem current?_append (hz : z.head? ≠ some c) : (Cursor.mk p (s ++ z)).current? = some c ↔ ∃ r, s = c :: r := by
  rw [current?]
  cases s with
  | nil => simp [hz]
  | cons d s => simp [eq_comm]

theorem scanRegex_closed (hq : quote = '"' ∨ quote = '\'') {raw es : List Char}
    (h : regexBody quote false ds = (raw, quote :: es)) : scanRegex ⟨p, 'r' :: quote :: ds⟩ =
      (.ok ⟨.regex, .text (String.ofList raw), p, (((p.after 'r').after quote).afterAll raw).after quote⟩,
        ⟨(((p.after 'r').after quote).afterAll raw).after quote, es⟩) := by
  have hbody : regexBody quote false (Cursor.mk p ('r' :: quote :: ds)).next.next.rest = (raw, quote :: es) := h
  refine (if_pos hq).trans ?_
  rw [hbody]
  exact if_pos rfl

theorem scanRegex_open (hq : quote = '"' ∨ quote = '\'')
    (h : (regexBody quote false ds).2 = []) : scanRegex ⟨p, 'r' :: quote :: ds⟩ =
      (.error (.illegalCharacter p (p.afterAll ('r' :: quote :: ds)) ("Expected closing " ++ String.singleton quote)),
        ⟨p.afterAll ('r' :: quote :: ds), []⟩) := by
  have hraw := regexBody_eq quote false ds
  rw [h, append_nil] at hraw
  have hbody : regexBody quote false (Cursor.mk p ('r' :: quote :: ds)).next.next.rest = (ds, []) := Prod.ext hraw h
  refine (if_pos hq).trans ?_
  rw [hbody]
  exact if_neg fun h => by cases h

def ofPattern : Except Diagnostic Token × Cursor → Scanned Lexeme
  | (.ok t, after) => .ok (.token t, after)
  | (.error d, after) => .ok (.refused d, after)

/-- Where a word is the letter `r` and a quote comes next, a pattern is read. -/
theorem step_pattern (hq : quote = '"' ∨ quote = '\'') (body : List Char) :
    step last ⟨p, 'r' :: quote :: body⟩ 'r' = .ofWord (ofPattern (scanRegex ⟨p, 'r' :: quote :: body⟩)) := by
  have hword :
      (Cursor.mk p ('r' :: quote :: body)).takeWhile isWordChar = (['r'], ⟨p.after 'r', quote :: body⟩) := by
    rcases hq with rfl | rfl <;> rfl
  have hstep (cur : Cursor) : step last cur 'r' = .ofWord (scanWord cur) := rfl
  have hcond : String.ofList ['r'] = "r" ∧ ((Cursor.mk (p.after 'r') (quote :: body)).current? = some '"' ∨
      (Cursor.mk (p.after 'r') (quote :: body)).current? = some '\'') := ⟨rfl, hq.imp (congrArg some) (congrArg some)⟩
  rw [hstep, scanWord, hword]
  dsimp only
  rw [if_pos hcond]
  rfl

theorem takeWhile_cursor_of_cons {d : Char} (h : s.dropWhile f = d :: ds) (q : Position)
    (y : List Char) : (Cursor.mk q (s ++ y)).takeWhile f =
    (s.takeWhile f, ⟨q.afterAll (s.takeWhile f), d :: ds ++ y⟩) := by
  have hlen := congrArg List.length (takeWhile_append_dropWhile (p := f) (l := s))
  rw [h, length_append, length_cons] at hlen
  rw [takeWhile, passed, takeWhile_append, if_neg (by omega), dropWhile_append, h]
  rfl

section

variable {c : Char} {cs : List Char}

private theorem blockComment_shorter {y : List Char} (hy : y ≠ []) : (blockComment y).2.length < y.length := by
  obtain ⟨c, cs, rfl⟩ := exists_cons_of_ne_nil hy
  have hlen := congrArg List.length (blockComment_eq cs)
  rw [length_append] at hlen
  unfold blockComment
  split
  · simp only [length_cons]
    omega
  · simp only [length_cons]
    omega

private theorem scanString_edge :
    Step.Similar p p' z z' (.ofToken (scanString ⟨p, c :: cs ++ z⟩)) (.ofToken (scanString ⟨p', c :: cs ++ z'⟩)) := by
  have hscan (q : Position) (y : List Char) : Step.ofToken (scanString ⟨q, c :: cs ++ y⟩) =
      .lexeme (.token ⟨.string, .text (String.ofList (stringBody false (cs ++ y)).1), q,
        (scanString ⟨q, c :: cs ++ y⟩).2.pos⟩)
        ⟨(scanString ⟨q, c :: cs ++ y⟩).2.pos, (stringBody false (cs ++ y)).2.2.tail⟩ := rfl
  rcases stringBody_append false cs with ⟨ds, -, hbody⟩ | ⟨e, hopen⟩
  · have hclosed (q : Position) (y : List Char) : (scanString ⟨q, c :: cs ++ y⟩).2.pos =
        ((q.after c).afterAll (stringBody false cs).2.1).after '"' := by
      show (next (passed _ (stringBody false (cs ++ y)).2.1 (stringBody false (cs ++ y)).2.2)).pos = _
      rw [hbody]
      rfl
    rw [hscan, hscan, hclosed, hclosed, hbody, hbody]
    apply similar_token ds
  · have hbeyond (q : Position) {y : List Char} (hy : y ≠ []) :
        ∃ a, (Step.ofToken (scanString ⟨q, c :: cs ++ y⟩)).after? = some a ∧ a.rest.length < y.length := by
      have hlen := congrArg List.length (stringBody_eq e y)
      have hpos := length_pos_iff.2 hy
      refine ⟨_, rfl, ?_⟩
      show (stringBody false (cs ++ y)).2.2.tail.length < y.length
      rw [hopen, length_tail]
      rw [length_append] at hlen
      omega
    refine .of_open (hbeyond p) (hbeyond p') ?_
    rintro rfl rfl
    rw [hscan, hscan, hopen]
    cases e <;> apply similar_token []

variable (hz : Edge z z')
include hz

theorem current?_edge (hc : c ∉ edgeChars) :
    (Cursor.mk p (s ++ z)).current? = some c ↔ (Cursor.mk p' (s ++ z')).current? = some c := by
  rw [current?_append (hz.head_ne hc).1, current?_append (hz.head_ne hc).2]

private theorem scanNumber_edge :
    Step.Similar p p' z z' (.ofScanned (scanNumber ⟨p, s ++ z⟩)) (.ofScanned (scanNumber ⟨p', s ++ z'⟩)) := by
  have hstop : ∀ c ∈ edgeChars, c.isDigit = false ∧ c ≠ '.' := by simp [edgeChars]
  unfold scanNumber
  rw [numeral_append fun c hc => hstop c (hz.head.1 c hc), numeral_append fun c hc => hstop c (hz.head.2 c hc)]
  obtain ⟨whole, fraction, rest⟩ := numeral s
  cases fraction with
  | nil =>
    dsimp only
    cases integerValue whole with
    | ok v => apply similar_token rest
    | error f => exact .refuse _ _
  | cons point places =>
    dsimp only
    cases decimalValue whole places with
    | ok v => apply similar_token rest
    | error f => exact .refuse _ _

private theorem scanPair_edge {short long : Kind} {second : Char} (hs : second ∉ edgeChars) :
    Step.Similar p p' z z' (.ofToken (scanPair short long second ⟨p, c :: cs ++ z⟩))
      (.ofToken (scanPair short long second ⟨p', c :: cs ++ z'⟩)) := by
  refine ite_elim (current?_edge (s := cs) hz hs) (fun h => ?_) fun _ => by apply similar_token cs
  obtain ⟨ds, rfl⟩ := (current?_append (hz.head_ne hs).1).1 h
  apply similar_token ds

/-! ### Marks, comments and words -/

private theorem scanNotEquals_edge : Step.Similar p p' z z' (.ofPossible (scanNotEquals ⟨p, c :: cs ++ z⟩))
    (.ofPossible (scanNotEquals ⟨p', c :: cs ++ z'⟩)) := by
  refine ite_elim (current?_edge (s := cs) hz (by decide)) (fun h => ?_) fun _ => .refuse _ _
  obtain ⟨ds, rfl⟩ := (current?_append (hz.head_ne (by decide)).1).1 h
  apply similar_token ds

private theorem scanEquals_edge :
    Step.Similar p p' z z' (.ofToken (scanEquals ⟨p, c :: cs ++ z⟩)) (.ofToken (scanEquals ⟨p', c :: cs ++ z'⟩)) := by
  have hplain {y : List Char} {q : Position} (hy : ∀ c ∈ y.head?, c ∈ edgeChars) : scanEquals ⟨q, c :: y⟩ =
      (⟨.identifier, .text "=", q, q.after c⟩, ⟨q.after c, y⟩) := by
    cases y with
    | nil => rfl
    | cons d ds =>
      have hd := hy d rfl
      simp only [edgeChars, mem_cons, not_mem_nil, or_false] at hd
      rcases hd with rfl | rfl | rfl <;> rfl
  cases cs with
  | nil =>
    rw [cons_append, nil_append, cons_append, nil_append, hplain hz.head.1, hplain hz.head.2]
    apply similar_token []
  | cons d ds =>
    have hcurrent (q : Position) (y : List Char) : (Cursor.mk q (c :: d :: ds ++ y)).next.current? = some d := rfl
    unfold scanEquals
    dsimp only
    rw [hcurrent, hcurrent]
    split
    · apply similar_token ds
    · apply similar_token ds
    · apply similar_token (d :: ds)

private theorem scanLess_edge (hl : Sees last last') :
    Step.Similar p p' z z' (.ofScanned (scanLess last ⟨p, c :: cs ++ z⟩))
      (.ofScanned (scanLess last' ⟨p', c :: cs ++ z'⟩)) := by
  have hrest (q : Position) (y : List Char) : (Cursor.mk q (c :: cs ++ y)).next.rest = cs ++ y := rfl
  unfold scanLess
  rw [hl.compared]
  refine ite_elim (current?_edge (s := cs) hz (by decide)) (fun h => ?_) fun _ => ?_
  · obtain ⟨ds, rfl⟩ := (current?_append (hz.head_ne (by decide)).1).1 h
    apply similar_token ds
  refine ite_elim (current?_edge (s := cs) hz (by decide)) (fun _ => by apply similar_token cs) fun _ => ?_
  refine ite_elim Iff.rfl (fun _ => by apply similar_token cs) fun _ => ?_
  rw [hrest, hrest, dropWhile_append, dropWhile_append]
  cases cs.dropWhile isSpace with
  | cons d ds =>
    rw [isEmpty_cons, if_neg Bool.false_ne_true, if_neg Bool.false_ne_true]
    dsimp only [cons_append]
    cases opensElement d <;> apply similar_token cs
  | nil =>
    rw [isEmpty_nil, if_pos rfl, if_pos rfl]
    cases hz with
    | none => exact .refuse _ _
    | ends => exact .ended rfl (cons_ne_nil _ _) (.inl ⟨_, rfl⟩)
    | lines => apply similar_token cs
    | blanks t hb hb' =>
      rw [hb.dropWhile, hb'.dropWhile]
      cases t.dropWhile isSpace with
      | nil => exact .refuse _ _
      | cons d ds =>
        dsimp only
        cases opensElement d <;> apply similar_token cs

private theorem skipComment_edge :
    Step.Similar p p' z z' (.trivia (skipComment ⟨p, c :: cs ++ z⟩)) (.trivia (skipComment ⟨p', c :: cs ++ z'⟩)) := by
  refine ite_elim (current?_edge (s := cs) hz (by decide)) (fun h => ?_) fun _ => ?_
  · obtain ⟨ds, rfl⟩ := (current?_append (hz.head_ne (by decide)).1).1 h
    obtain ⟨hmark, hmark'⟩ := hz.head_ne (c := '$') (by decide)
    have hinside (q : Position) (y : List Char) : (Cursor.mk q (c :: '[' :: ds ++ y)).next.next =
        ⟨(q.after c).after '[', ds ++ y⟩ := rfl
    rw [hinside, hinside]
    rcases blockComment_append ds with hclosed | hopen
    · rw [hclosed z hmark, hclosed z' hmark']
      exact .trivia (fun q => ((q.after c).after '[').afterAll (blockComment ds).1) _
    · rw [hopen z hmark, hopen z' hmark']
      refine .of_open (fun hy => ⟨_, rfl, blockComment_shorter hy⟩) (fun hy => ⟨_, rfl, blockComment_shorter hy⟩) ?_
      rintro rfl rfl
      exact .trivia (fun q => ((q.after c).after '[').afterAll (blockComment (ds ++ [])).1) []
  · have hnext (q : Position) (y : List Char) : (Cursor.mk q (c :: cs ++ y)).next = ⟨q.after c, cs ++ y⟩ := rfl
    have hline {y y' : List Char} (hy : ∀ d ∈ y.head?, (d != '\n') = false)
      (hy' : ∀ d ∈ y'.head?, (d != '\n') = false) :
        Step.Similar p p' y y' (.trivia ((Cursor.mk p (c :: cs ++ y)).next.takeWhile (· != '\n')).2)
          (.trivia ((Cursor.mk p' (c :: cs ++ y')).next.takeWhile (· != '\n')).2) := by
      rw [hnext, hnext, takeWhile_cursor_append hy, takeWhile_cursor_append hy']
      exact .trivia (fun q => (q.after c).afterAll (cs.takeWhile (· != '\n'))) _
    cases hz with
    | none => exact hline nofun nofun
    | ends => exact hline nofun (by rintro d ⟨⟩; rfl)
    | lines => exact hline (by rintro d ⟨⟩; rfl) (by rintro d ⟨⟩; rfl)
    | @blanks b b' t hb hb' =>
      cases hd : cs.dropWhile (· != '\n') with
      | nil =>
        refine .beyond _ rfl ?_
        obtain ⟨d, ds, hds, hs⟩ := hb.head t
        have hnl : (d != '\n') = true := by rcases space_or_tab hs with rfl | rfl <;> decide
        have := (dropWhile_suffix (· != '\n') (l := ds)).length_le
        show ((cs ++ (b ++ t)).dropWhile (· != '\n')).length < _
        rw [dropWhile_append, hd, isEmpty_nil, if_pos rfl, hds, dropWhile_cons, if_pos hnl,
          length_cons]
        omega
      | cons d ds =>
        rw [hnext, hnext, takeWhile_cursor_of_cons hd, takeWhile_cursor_of_cons hd]
        exact .trivia (fun q => (q.after c).afterAll (cs.takeWhile (· != '\n'))) (d :: ds)

end

/-- What extending a phrase comes to, in the same way. -/
inductive PhraseSimilar (p p' : Position) (z z' : List Char) :
    Except Stuck (Option (String × Cursor)) → Except Stuck (Option (String × Cursor)) → Prop
  | none : PhraseSimilar p p' z z' (.ok none) (.ok none)
  | some (longer : String) (stop : Position → Position) (s : List Char) :
    PhraseSimilar p p' z z' (.ok (some (longer, ⟨stop p, s ++ z⟩))) (.ok (some (longer, ⟨stop p', s ++ z'⟩)))
  | error (e e' : Stuck) : PhraseSimilar p p' z z' (.error e) (.error e')
  | beyond (longer : String) {a : Cursor} (r : Except Stuck (Option (String × Cursor))) : a.rest.length < z.length →
    PhraseSimilar p p' z z' (.ok (some (longer, a))) r
  | ended (e : Stuck) (r : Except Stuck (Option (String × Cursor))) : z = [] → z' ≠ [] →
    PhraseSimilar p p' z z' (.error e) r

theorem PhraseSimilar.widen (h : PhraseSimilar p p' [] [] x x')
    (hx : ∀ longer a, x = .ok (Option.some (longer, a)) → a.rest.length < z.length) {q q' : Position} :
    PhraseSimilar q q' z z' x x' := by
  cases h with
  | none => exact .none
  | some | beyond => exact .beyond _ _ (hx _ _ rfl)
  | error e e' => exact .error e e'
  | ended _ _ _ hne => exact absurd rfl hne

theorem PhraseSimilar.later {f : Position → Position}
    (h : PhraseSimilar (f p) (f p') z z' x x') : PhraseSimilar p p' z z' x x' := by
  cases h with
  | none => exact .none
  | some longer stop r => exact .some longer (fun q => stop (f q)) r
  | error e e' => exact .error e e'
  | beyond longer r h => exact .beyond _ _ h
  | ended e _ h h' => exact .ended e _ h h'

private theorem extendPhrase_edge (hz : Edge z z') {n : Nat} {phrase : String} :
    PhraseSimilar p p' z z' (extendPhrase n phrase ⟨p, s ++ z⟩) (extendPhrase n phrase ⟨p', s ++ z'⟩) := by
  induction n generalizing phrase p p' s z z' with
  | zero => exact .none
  | succ n ih =>
    rw [extendPhrase, extendPhrase]
    cases hs : s.dropWhile isSpace with
    | nil =>
      have hstart (q : Position) (y : List Char) : ∃ q', ((Cursor.mk q (s ++ y)).takeWhile isSpace).2 =
          ⟨q', y.dropWhile isSpace⟩ := by
        refine ⟨q.afterAll ((s ++ y).takeWhile isSpace), ?_⟩
        rw [takeWhile, passed, dropWhile_append, hs]
        rfl
      obtain ⟨q, hq⟩ := hstart p z
      obtain ⟨q', hq'⟩ := hstart p' z'
      rw [hq, hq']
      cases hz with
      | none => exact .error _ _
      | ends => exact .ended _ _ rfl (cons_ne_nil _ _)
      | lines => exact .none
      | @blanks b b' t hb hb' =>
        -- the words stand behind the blanks, so that they are read beyond them
        rw [hb.dropWhile, hb'.dropWhile]
        cases hu : t.dropWhile isSpace with
        | nil => exact .error _ _
        | cons c cs =>
          have hword : ((c :: cs).dropWhile isWordChar).length < (b ++ t).length := by
            have hlen := length_pos_iff.2 hb.ne_nil
            have hsub := (dropWhile_suffix isSpace (l := t)).length_le
            have hsub' := (dropWhile_suffix isWordChar (l := c :: cs)).length_le
            rw [hu] at hsub
            rw [length_append]
            omega
          simp only [current?, head?_cons]
          by_cases hc : isLetter c = true
          · rw [if_pos hc, if_pos hc]
            have htake (q : Position) : (Cursor.mk q (c :: cs)).takeWhile isWordChar =
                ((c :: cs).takeWhile isWordChar,
                  ⟨q.afterAll ((c :: cs).takeWhile isWordChar), (c :: cs).dropWhile isWordChar⟩) := rfl
            rw [htake, htake]
            generalize (c :: cs).takeWhile isWordChar = word
            generalize (c :: cs).dropWhile isWordChar = rest at hword ⊢
            by_cases hk : keywords.contains (phrase ++ " " ++ String.ofList word) = true
            · rw [if_pos hk]
              exact .beyond _ _ hword
            · rw [if_neg hk, if_neg hk]
              have hrest := @ih [] [] (q.afterAll word) (q'.afterAll word) rest .none
                (phrase ++ " " ++ String.ofList word)
              rw [append_nil] at hrest
              exact hrest.widen fun longer a h => by
                obtain ⟨-, more, hover, -⟩ := phrase_extendPhrase h
                exact Nat.lt_of_le_of_lt hover.leads.le hword
          · rw [if_neg hc, if_neg hc]
            exact .none
    | cons c cs =>
      rw [takeWhile_cursor_of_cons hs, takeWhile_cursor_of_cons hs]
      have hcurrent (q : Position) (y : List Char) : (Cursor.mk q (c :: cs ++ y)).current? = some c := rfl
      obtain ⟨hword, hword'⟩ := hz.stops (f := isWordChar) (by decide)
      rw [hcurrent, hcurrent, takeWhile_cursor_append hword, takeWhile_cursor_append hword']
      dsimp only
      split
      · split
        · exact .some _ (fun q => (q.afterAll (s.takeWhile isSpace)).afterAll ((c :: cs).takeWhile isWordChar)) _
        · exact .later (f := fun q => (q.afterAll (s.takeWhile isSpace)).afterAll
            ((c :: cs).takeWhile isWordChar)) (ih hz)
      · exact .none

private theorem scanRegex_edge (hq : quote = '"' ∨ quote = '\'') :
    Step.Similar p p' z z' (.ofWord (ofPattern (scanRegex ⟨p, 'r' :: quote :: (ds ++ z)⟩)))
      (.ofWord (ofPattern (scanRegex ⟨p', 'r' :: quote :: (ds ++ z')⟩))) := by
  rcases regexBody_append quote false ds with ⟨es, -, hbody⟩ | ⟨e, hopen⟩
  · rw [scanRegex_closed hq (hbody z), scanRegex_closed hq (hbody z')]
    apply similar_token es
  have hbeyond (q : Position) {y : List Char} (hy : y ≠ []) : ∃ a,
      (Step.ofWord (ofPattern (scanRegex ⟨q, 'r' :: quote :: (ds ++ y)⟩))).after? = some a ∧
        a.rest.length < y.length := by
    by_cases hr : (regexBody quote false (ds ++ y)).2 = []
    · rw [scanRegex_open hq hr]
      exact ⟨_, rfl, length_pos_iff.2 hy⟩
    · -- a pattern is closed where its body leaves something
      obtain ⟨es, hes⟩ := head?_eq_some_iff.1 ((regexBody_rest quote false (ds ++ y)).resolve_left hr)
      have hlen := congrArg List.length (regexBody_eq quote e y)
      rw [← hopen, hes, length_append, length_cons] at hlen
      rw [scanRegex_closed hq (Prod.ext rfl hes)]
      exact ⟨_, rfl, by show es.length < _; omega⟩
  refine .of_open (hbeyond p) (hbeyond p') ?_
  rintro rfl rfl
  rw [scanRegex_open hq (hopen []), scanRegex_open hq (hopen [])]
  exact .lexeme (fun q => .refused (.illegalCharacter q (q.afterAll ('r' :: quote :: (ds ++ [])))
    ("Expected closing " ++ String.singleton quote))) (fun q => q.afterAll ('r' :: quote :: (ds ++ []))) []
      fun _ _ => .refused _ _

private theorem scanWord_edge (hz : Edge z z') :
    Step.Similar p p' z z' (.ofWord (scanWord ⟨p, s ++ z⟩)) (.ofWord (scanWord ⟨p', s ++ z'⟩)) := by
  obtain ⟨hword, hword'⟩ := hz.stops (f := isWordChar) (by decide)
  unfold scanWord
  rw [takeWhile_cursor_append hword, takeWhile_cursor_append hword']
  refine ite_elim (and_congr_right fun _ => or_congr (current?_edge hz (by decide)) (current?_edge hz (by decide)))
    (fun hc => ?_) fun _ => ?_
  · obtain ⟨quote, hq, ds, hds⟩ : ∃ quote, (quote = '"' ∨ quote = '\'') ∧
        ∃ ds, s.dropWhile isWordChar = quote :: ds :=
      hc.2.elim (fun h => ⟨'"', .inl rfl, (current?_append (hz.head_ne (by decide)).1).1 h⟩)
        (fun h => ⟨'\'', .inr rfl, (current?_append (hz.head_ne (by decide)).1).1 h⟩)
    obtain rfl : s = 'r' :: quote :: ds := by
      have hw : s.takeWhile isWordChar = ['r'] := String.ofList_injective hc.1
      rw [← takeWhile_append_dropWhile (p := isWordChar) (l := s), hw, hds]
      rfl
    exact scanRegex_edge hq
  · refine ite_elim Iff.rfl (fun _ => ?_) fun _ => by apply similar_token
    have hphrase := (@extendPhrase_edge z z' (p.afterAll (s.takeWhile isWordChar))
      (p'.afterAll (s.takeWhile isWordChar)) (s.dropWhile isWordChar) hz 2
      (String.ofList (s.takeWhile isWordChar))).later (f := fun q => q.afterAll (s.takeWhile isWordChar))
    revert hphrase
    generalize extendPhrase 2 _ _ = x, extendPhrase 2 _ _ = x'
    intro hphrase
    cases hphrase with
    | none => apply similar_token
    | some longer stop r => apply similar_token r
    | error e e' => exact .refuse _ _
    | beyond longer r h => exact .beyond _ rfl h
    | ended e _ h h' => exact .ended h h' (.inl ⟨_, rfl⟩)

/-- After these tokens, what follows `>` decides whether it closes a tuple. -/
def mayClose (last : Option Token) : Bool := last.any fun t => endsElement t && t.kind != .langle

theorem Sees.mayClose (h : Sees last last') : mayClose last' = mayClose last := by
  cases h with
  | none => rfl
  | some hk hv => simp only [Token.mayClose, Option.any_some, endsElement_congr hk hv, hk]
  | newline hk => simp only [Token.mayClose, Option.any_some, not_endsElement_of_newline hk]; rfl

/-- Whether what follows a blank after `>` lets it close a tuple. -/
def closesTuple : List Char → Bool
  | [] => true
  | d :: ds =>
    [':', ',', '>', ';', ')', '\n'].contains d || (Text.isAlphabetic d && wordsAfterTuple.contains
      (String.ofList ((d :: ds).takeWhile fun c => Text.isAlphanumeric c || c == '_')))

private theorem neither_of_blank (hc : isSpace c = true) :
    [':', ',', '>', ';', ')', '\n'].contains c = false ∧ Text.isAlphabetic c = false := by
  rcases space_or_tab hc with rfl | rfl
  · exact ⟨by decide, by decide +kernel⟩
  · exact ⟨by decide, by decide +kernel⟩

/-! ### The mark `>` -/

theorem closesTuple_blank (hc : isSpace c = true) (cs : List Char) : closesTuple (c :: cs) = false := by
  obtain ⟨hmark, hletter⟩ := neither_of_blank hc
  rw [closesTuple, hmark, hletter]
  rfl

private theorem closesTuple_edge (hz : Edge z z') : closesTuple (s ++ z) = closesTuple (s ++ z') := by
  cases s with
  | nil =>
    have hline (y : List Char) : closesTuple ('\n' :: y) = true := by simp [closesTuple]
    cases hz with
    | none => rfl
    | ends z => exact (hline z).symm
    | lines z z' => exact (hline z).trans (hline z').symm
    | blanks t hb hb' =>
      obtain ⟨c, cs, hc, hs⟩ := hb.head t
      obtain ⟨d, ds, hd, hs'⟩ := hb'.head t
      rw [hc, hd]
      exact (closesTuple_blank hs cs).trans (closesTuple_blank hs' ds).symm
  | cons d ds =>
    obtain ⟨hword, hword'⟩ := hz.stops (f := fun c => Text.isAlphanumeric c || c == '_') (by decide +kernel)
    rw [cons_append, cons_append, closesTuple, closesTuple, ← cons_append, ← cons_append,
      takeWhile_append_of_head hword, takeWhile_append_of_head hword']

theorem scanGreater_blank (hm : mayClose last = true) {b : Char} (hb : isSpace b = true) (ds : List Char) :
    scanGreater last ⟨p, c :: b :: ds⟩ = if ds = [] then .error ⟨.endOfText, ⟨p.after c, b :: ds⟩⟩ else
      .ok (⟨if closesTuple ds then .rangle else .gt, .absent, p, p.after c⟩, ⟨p.after c, b :: ds⟩) := by
  have hequals : (Cursor.mk p (c :: b :: ds)).next.current? ≠ some '=' := by
    rcases space_or_tab hb with rfl | rfl <;> exact fun h => by cases h
  have hmark : [',', ';', '\n', ')', ']', '}', '>'].contains b = false := by
    rcases space_or_tab hb with rfl | rfl <;> decide
  cases last with
  | none => cases hm
  | some t =>
    obtain ⟨hends, hkind⟩ : endsElement t = true ∧ t.kind ≠ .langle := by simpa [mayClose] using hm
    have hrest : (Cursor.mk p (c :: b :: ds)).next.rest = b :: ds := rfl
    unfold scanGreater
    dsimp only
    rw [if_neg hequals, hends, if_neg (by decide), if_neg hkind, hrest]
    dsimp only
    rw [hmark, if_neg (by decide), if_pos hb]
    cases ds with
    | nil => rfl
    | cons d ds =>
      rw [if_neg (cons_ne_nil d ds)]
      dsimp only
      by_cases hd : isSpace d = true
      · obtain ⟨hmark, hletter⟩ := neither_of_blank hd
        rw [closesTuple_blank hd, hmark, hletter]
        rfl
      · have hword : (Cursor.mk p (c :: b :: d :: ds)).next.nextWord =
            (d :: ds).takeWhile fun c => Text.isAlphanumeric c || c == '_' := by
          show ((b :: d :: ds).dropWhile isSpace).takeWhile _ = _
          rw [dropWhile_cons_of_pos hb, dropWhile_cons_of_neg hd]
        rw [hword, closesTuple]
        -- the unifier must not open the table of letters
        generalize Text.isAlphabetic d = letter
        generalize [':', ',', '>', ';', ')', '\n'].contains d = mark
        generalize wordsAfterTuple.contains _ = word
        cases mark <;> cases letter <;> cases word <;> rfl

/-- `>` finds the same, unless it may close a tuple and stands right before blanks. -/
theorem scanGreater_edge (hz : Edge z z') (hl : Sees last last')
    (hgt : cs = [] → mayClose last = true → ∀ b ∈ z.head?, isSpace b = false) :
    Step.Similar p p' z z' (.ofScanned (scanGreater last ⟨p, c :: cs ++ z⟩))
      (.ofScanned (scanGreater last' ⟨p', c :: cs ++ z'⟩)) := by
  have hrest (q : Position) (y : List Char) : (Cursor.mk q (c :: cs ++ y)).next.rest = cs ++ y := rfl
  have found (k : Kind) : Step.Similar p p' z z'
      (.ofScanned (.ok (upTo k ⟨p, c :: cs ++ z⟩ (Cursor.mk p (c :: cs ++ z)).next, (Cursor.mk p (c :: cs ++ z)).next)))
      (.ofScanned (.ok (upTo k ⟨p', c :: cs ++ z'⟩ (Cursor.mk p' (c :: cs ++ z')).next,
        (Cursor.mk p' (c :: cs ++ z')).next))) := by apply similar_token cs
  by_cases hblank : mayClose last = true ∧ ∃ b ds, cs = b :: ds ∧ isSpace b = true
  · obtain ⟨hm, b, ds, rfl, hb⟩ := hblank
    rw [cons_append, cons_append, cons_append, cons_append, scanGreater_blank hm hb,
      scanGreater_blank (hl.mayClose.trans hm) hb, closesTuple_edge hz]
    by_cases hnil : ds ++ z = []
    · obtain ⟨rfl, rfl⟩ := append_eq_nil_iff.1 hnil
      rw [if_pos hnil]
      by_cases hz' : z' = []
      · subst hz'
        rw [if_pos hnil]
        exact .refuse _ _
      · exact .ended rfl hz' (.inl ⟨_, rfl⟩)
    · have hnil' : ds ++ z' ≠ [] := fun h =>
        have h := append_eq_nil_iff.1 h
        hnil (append_eq_nil_iff.2 ⟨h.1, hz.nil h.2⟩)
      rw [if_neg hnil, if_neg hnil']
      apply similar_token (b :: ds)
  refine ite_elim (current?_edge (s := cs) hz (by decide)) (fun h => ?_) fun _ => ?_
  · obtain ⟨ds, rfl⟩ := (current?_append (hz.head_ne (by decide)).1).1 h
    apply similar_token ds
  cases hl with
  | none => exact found .gt
  | newline hk =>
    simp only [not_endsElement_of_newline hk]
    exact found .gt
  | @some t t' hk hv =>
    dsimp only
    rw [endsElement_congr hk hv, hk]
    refine ite_elim Iff.rfl (fun _ => found .gt) fun hends => ite_elim Iff.rfl (fun _ => found .rangle) fun hkind => ?_
    have hm : mayClose (some t) = true := by simp_all [mayClose]
    rw [hrest, hrest]
    cases cs with
    | nil =>
      cases hz with
      | none => exact .refuse _ _
      | ends => exact .ended rfl (cons_ne_nil _ _) (.inl ⟨_, rfl⟩)
      | lines => exact found .rangle
      | blanks t hb _ =>
        obtain ⟨b, bs, hbs, hs⟩ := hb.head t
        exact absurd hs (by rw [hgt rfl hm b (by rw [hbs]; rfl)]; exact Bool.false_ne_true)
    | cons d ds =>
      dsimp only [cons_append]
      have hd : ¬isSpace d = true := fun h => hblank ⟨hm, d, ds, rfl, h⟩
      rw [if_neg hd, if_neg hd]
      exact ite_elim Iff.rfl (fun _ => found .rangle) fun _ => found .gt

end

/-- A step finds the same at any place and before any edge, but for `>` right before blanks. -/
theorem step_similar {z : List Char} {p p' : Position} (hz : Edge z z') (hl : Sees last last')
    (hgt : c = '>' → cs = [] → (∃ b ∈ z.head?, isSpace b = true) →
      Step.Similar p p' z z' (step last ⟨p, '>' :: z⟩ '>') (step last' ⟨p', '>' :: z'⟩ '>')) :
    Step.Similar p p' z z' (step last ⟨p, c :: cs ++ z⟩ c) (step last' ⟨p', c :: cs ++ z'⟩ c) := by
  refine step_elim ?blank ?comment ?number ?word ?string ?pair ?notEquals ?equals ?less ?greater ?mark
  case blank => exact fun _ => .trivia (fun q => q.after c) cs
  case comment => exact fun _ => skipComment_edge hz
  case number => exact fun _ => scanNumber_edge hz
  case word => exact fun _ => scanWord_edge hz
  case string => exact fun _ => scanString_edge
  case pair => exact fun _ _ second hm => scanPair_edge hz (by cases hm <;> decide)
  case notEquals => exact fun _ => scanNotEquals_edge hz
  case equals => exact fun _ => scanEquals_edge hz
  case less => exact fun _ => scanLess_edge hz hl
  case greater =>
    rintro rfl
    by_cases h : cs = [] ∧ ∃ b ∈ z.head?, isSpace b = true
    · obtain ⟨rfl, hb⟩ := h
      exact hgt rfl rfl hb
    · exact scanGreater_edge hz hl fun hcs _ b hb => Bool.eq_false_iff.2 fun hs => h ⟨hcs, b, hb, hs⟩
  case mark =>
    unfold Step.ofMark
    cases markKind? c with
    | none => exact .refuse _ _
    | some kind => apply similar_token cs

end Token

end Utterance

import Mathlib.Data.List.Infix
import Mathlib.Data.Nat.Digits.Defs
import Utterance.Token.Scanner

/-!
# What a step of a scan reads

* `Spelled kind value lexeme` says which lexemes a token of some kind and value may have.
* `Trivium text rest` says that a text before `rest` is a blank or a comment.

A step of a scan passes a piece of trivia or a lexeme of the token that it finds (`step_reads`), and that is something
(`over_of_step`).
-/

namespace Utterance

open List Cursor

variable {c : Char} {kind : Kind} {raw rest value : List Char} {t : Token}

namespace Position

theorem afterAll_append (p : Position) (cs ds : List Char) : p.afterAll (cs ++ ds) = (p.afterAll cs).afterAll ds :=
  foldl_append

theorem afterAll_concat (p : Position) (cs : List Char) (c : Char) : p.afterAll (cs ++ [c]) = (p.afterAll cs).after c :=
  afterAll_append p cs [c]

theorem idx_after (p : Position) (c : Char) : (p.after c).idx = p.idx + 1 := by
  unfold after
  split <;> rfl

theorem afterAll_idx (p : Position) (cs : List Char) : (p.afterAll cs).idx = p.idx + cs.length := by
  unfold afterAll
  induction cs generalizing p with
  | nil => simp
  | cons c cs ih =>
    rw [foldl_cons, ih, idx_after, length_cons]
    omega

end Position

namespace Cursor

/-- One cursor is reached from another one over some text. -/
structure Over (cur : Cursor) (text : List Char) (after : Cursor) : Prop where
  rest : cur.rest = text ++ after.rest
  pos : after.pos = cur.pos.afterAll text

variable {cur mid after : Cursor} {text text' : List Char}

theorem Over.trans (h : cur.Over text mid) (h' : mid.Over text' after) : cur.Over (text ++ text') after :=
  ⟨by rw [h.rest, h'.rest, append_assoc], by rw [h'.pos, h.pos, Position.afterAll_append]⟩

theorem over_next (h : cur.current? = some c) : cur.Over [c] cur.next := by
  obtain ⟨cs, hcs⟩ := head?_eq_some_iff.1 h
  refine ⟨?_, ?_⟩
  · rw [next, hcs]
    rfl
  · rw [next, h]
    rfl

theorem over_passed (h : text ++ rest = cur.rest) : cur.Over text (cur.passed text rest) :=
  ⟨h.symm, rfl⟩

theorem over_takeWhile (p : Char → Bool) (cur : Cursor) : cur.Over (cur.takeWhile p).1 (cur.takeWhile p).2 :=
  over_passed takeWhile_append_dropWhile

end Cursor

/-! ### Lexemes and trivia -/

namespace Token

/-- The number that a row of digits denotes, the last one being the ones. -/
def decimal (digits : List Char) : Nat := Nat.ofDigits 10 (digits.reverse.map fun d => d.toNat - '0'.toNat)

/-- What stands between the quotes of a text, and what that denotes: after a backslash a character stands for another
one, and a quote stands for itself only there. -/
inductive Literal : List Char → List Char → Prop
  | nil : Literal [] []
  | plain {c : Char} {raw value : List Char} : c ≠ '"' → c ≠ '\\' → Literal raw value → Literal (c :: raw) (c :: value)
  | escaped {c : Char} {raw value : List Char} : Literal raw value → Literal ('\\' :: c :: raw) (unescape c :: value)

/-- A text up to its end; at the end a backslash may stand alone, which denotes nothing. -/
inductive LiteralOpen : List Char → List Char → Prop
  | all {raw value : List Char} : Literal raw value → LiteralOpen raw value
  | backslash {raw value : List Char} : Literal raw value → LiteralOpen (raw ++ ['\\']) value

theorem LiteralOpen.plain (hq : c ≠ '"') (hb : c ≠ '\\') (h : LiteralOpen raw value) :
    LiteralOpen (c :: raw) (c :: value) := by
  cases h with
  | all h => exact .all (.plain hq hb h)
  | backslash h => exact .backslash (.plain hq hb h)

theorem LiteralOpen.escaped (h : LiteralOpen raw value) : LiteralOpen ('\\' :: c :: raw) (unescape c :: value) := by
  cases h with
  | all h => exact .all (.escaped h)
  | backslash h => exact .backslash (.escaped h)

/-- What stands between the quotes of a pattern: a quote stands only after a backslash, and no backslash at the
end. -/
structure Raw (quote : Char) (raw : List Char) : Prop where
  escaped : ∀ before after, raw = before ++ quote :: after → before.getLast? = some '\\'
  closed : raw.getLast? ≠ some '\\'

/-- Words with blanks between them, and the phrase that they make. -/
inductive Phrase : String → List Char → Prop
  | word (w) : Phrase (String.ofList w) w
  | more {phrase text blanks w} : Phrase phrase text → blanks ≠ [] → (∀ c ∈ blanks, isSpace c = true) →
    Phrase (phrase ++ " " ++ String.ofList w) (text ++ blanks ++ w)

def Kind.spellings : Kind → List String
  | .newline => [";", "\n"]
  | .plus => ["+"]
  | .minus => ["-"]
  | .mul => ["*"]
  | .div => ["/"]
  | .mod => ["%"]
  | .lparen => ["("]
  | .rparen => [")"]
  | .lsquare => ["["]
  | .rsquare => ["]"]
  | .lcurly => ["\x7b"]
  | .rcurly => ["\x7d"]
  | .lsetbrace => ["\x7b:"]
  | .rsetbrace => [":\x7d"]
  | .langle | .lt => ["<"]
  | .rangle | .gt => [">"]
  | .lte => ["<="]
  | .gte => [">="]
  | .ampersand => ["&"]
  | .caret => ["^"]
  | .ee => ["=="]
  | .ne => ["!="]
  | .comma => [","]
  | .colon => [":"]
  | .atSign => ["@"]
  | .arrow => ["=>"]
  | .int | .float | .string | .regex | .identifier | .keyword | .semicolon | .eof => []

/-- A lexeme of a token of some kind and value. -/
inductive Spelled : Kind → Scalar → List Char → Prop
  | int {digits : List Char} : digits ≠ [] → (∀ c ∈ digits, c.isDigit = true) →
    Spelled .int (.int (decimal digits)) digits
  | float {whole places : List Char} : whole ≠ [] → (∀ c ∈ whole, c.isDigit = true) →
    (∀ c ∈ places, c.isDigit = true) →
    Spelled .float (.float (Floating.ofDecimal (decimal (whole ++ places)) places.length)) (whole ++ '.' :: places)
  | string {raw value : List Char} : Literal raw value →
    Spelled .string (.text (String.ofList value)) ('"' :: (raw ++ ['"']))
  | regex {quote : Char} {raw : List Char} : quote = '"' ∨ quote = '\'' → Raw quote raw →
    Spelled .regex (.text (String.ofList raw)) ('r' :: quote :: (raw ++ [quote]))
  | identifier {c : Char} {cs : List Char} : isLetter c = true → (∀ d ∈ cs, isWordChar d = true) →
    String.ofList (c :: cs) ∉ keywords → Spelled .identifier (.text (String.ofList (c :: cs))) (c :: cs)
  | equals : Spelled .identifier (.text "=") ['=']
  | keyword {phrase : String} {lexeme : List Char} : phrase ∈ keywords → Phrase phrase lexeme →
    Spelled .keyword (.text phrase) lexeme
  | mark {kind : Kind} {lexeme : List Char} : String.ofList lexeme ∈ kind.spellings → Spelled kind .absent lexeme

/-- A lexeme of a text whose closing quote is missing. -/
inductive SpelledOpen : Kind → Scalar → List Char → Prop
  | mk {raw value : List Char} : LiteralOpen raw value →
    SpelledOpen .string (.text (String.ofList value)) ('"' :: raw)

/-- A blank or a comment before `rest`. A comment that no bracket opens goes on to the end of its line, and a
bracketed one to the first closing mark. -/
inductive Trivium : List Char → List Char → Prop
  | blank {c : Char} (rest) : isSpace c = true → Trivium [c] rest
  | line {body rest : List Char} : body.head? ≠ some '[' → '\n' ∉ body → rest.head?.all (· == '\n') = true →
    Trivium ('$' :: body) rest
  | block {body : List Char} (rest) : ¬[']', '$'] <:+: body ++ [']'] → Trivium ('$' :: '[' :: (body ++ [']', '$'])) rest
  | unclosed {body : List Char} : ¬[']', '$'] <:+: body → Trivium ('$' :: '[' :: body) []

private theorem numeral_eq (s : List Char) : (numeral s).1 ++ (numeral s).2.1 ++ (numeral s).2.2 = s := by
  unfold numeral
  split
  · next rest h =>
    rw [append_assoc, cons_append, takeWhile_append_dropWhile, ← h, takeWhile_append_dropWhile]
  · rw [append_nil, takeWhile_append_dropWhile]

theorem stringBody_eq (escaped : Bool) (s : List Char) :
    (stringBody escaped s).2.1 ++ (stringBody escaped s).2.2 = s := by
  induction s generalizing escaped with
  | nil => cases escaped <;> rfl
  | cons c cs ih =>
    cases escaped with
    | true => exact congrArg (c :: ·) (ih false)
    | false =>
      rw [stringBody]
      split
      · rfl
      · split
        · exact congrArg (c :: ·) (ih true)
        · exact congrArg (c :: ·) (ih false)

theorem regexBody_eq (quote : Char) (escaped : Bool) (s : List Char) :
    (regexBody quote escaped s).1 ++ (regexBody quote escaped s).2 = s := by
  induction s generalizing escaped with
  | nil => cases escaped <;> rfl
  | cons c cs ih =>
    rw [regexBody]
    split
    · rfl
    · exact congrArg (c :: ·) (ih _)

theorem blockComment_eq (s : List Char) : (blockComment s).1 ++ (blockComment s).2 = s := by
  induction s with
  | nil => rfl
  | cons c cs ih =>
    unfold blockComment
    split
    · rfl
    · exact congrArg (c :: ·) ih

namespace Step

def after? : Step → Option Cursor
  | .trivia cur => some cur
  | .lexeme _ cur => some cur
  | .refuse _ => none

def ofWord : Scanned Lexeme → Step
  | .ok (x, after) => lexeme x after
  | .error stuck => refuse (.fault stuck)

def ofPossible : Except Diagnostic Token × Cursor → Step
  | (.ok t, after) => ofToken (t, after)
  | (.error d, _) => refuse (.diagnostic d)

/-- The step at a character that is a token by itself, or none. -/
def ofMark (cur : Cursor) (c : Char) : Step :=
  match markKind? c with
  | some kind => ofToken (mark kind cur.pos, cur.next)
  | none => refuse (.diagnostic (.illegalCharacter cur.pos cur.next.pos ("'" ++ String.singleton c ++ "'")))

end Step

theorem ite_elim {α : Type} {R : Step → Step → Prop} {f : α → Step} {a b : Prop} {_ : Decidable a} {_ : Decidable b}
    {x x' y y' : α} (hab : a ↔ b) (hx : a → R (f x) (f x')) (hy : ¬a → R (f y) (f y')) :
    R (f (if a then x else y)) (f (if b then x' else y')) := by
  by_cases h : a
  · rw [if_pos h, if_pos (hab.1 h)]
    exact hx h
  · rw [if_neg h, if_neg (mt hab.2 h)]
    exact hy h

/-- Characters that begin a mark of one or of two characters. -/
inductive PairMark : Char → Kind → Kind → Char → Prop
  | brace : PairMark '{' .lcurly .lsetbrace ':'
  | colon : PairMark ':' .colon .rsetbrace '}'

/-! ### Steps -/

/-- The scanners that a step chooses from by its character. Steps at one character at two places choose the same
one. -/
theorem step_elim {R : Step → Step → Prop} {last last' : Option Token} {cur cur' : Cursor} {c : Char}
    (blank : isSpace c = true → R (.trivia cur.next) (.trivia cur'.next))
    (comment : c = '$' → R (.trivia (skipComment cur)) (.trivia (skipComment cur')))
    (number : c.isDigit = true → R (.ofScanned (scanNumber cur)) (.ofScanned (scanNumber cur')))
    (word : isLetter c = true → R (.ofWord (scanWord cur)) (.ofWord (scanWord cur')))
    (string : c = '"' → R (.ofToken (scanString cur)) (.ofToken (scanString cur')))
    (pair : ∀ short long second, PairMark c short long second →
      R (.ofToken (scanPair short long second cur)) (.ofToken (scanPair short long second cur')))
    (notEquals : c = '!' → R (.ofPossible (scanNotEquals cur)) (.ofPossible (scanNotEquals cur')))
    (equals : c = '=' → R (.ofToken (scanEquals cur)) (.ofToken (scanEquals cur')))
    (less : c = '<' → R (.ofScanned (scanLess last cur)) (.ofScanned (scanLess last' cur')))
    (greater : c = '>' → R (.ofScanned (scanGreater last cur)) (.ofScanned (scanGreater last' cur')))
    (mark : R (.ofMark cur c) (.ofMark cur' c)) : R (step last cur c) (step last' cur' c) := by
  refine ite_elim (f := id) Iff.rfl blank fun _ => ite_elim (f := id) Iff.rfl comment fun _ =>
    ite_elim (f := id) Iff.rfl number fun _ => ite_elim (f := id) Iff.rfl word fun _ =>
    ite_elim (f := id) Iff.rfl string fun _ => ite_elim (f := id) Iff.rfl (fun hc => pair _ _ _ (hc ▸ .brace)) fun _ =>
    ite_elim (f := id) Iff.rfl (fun hc => pair _ _ _ (hc ▸ .colon)) fun _ =>
      ite_elim (f := id) Iff.rfl notEquals fun _ =>
    ite_elim (f := id) Iff.rfl equals fun _ => ite_elim (f := id) Iff.rfl less fun _ =>
    ite_elim (f := id) Iff.rfl greater fun _ => mark

private theorem digitsValue_eq (ds : List Char) : digitsValue ds = decimal ds := by
  unfold digitsValue decimal
  induction ds using List.reverseRecOn with
  | nil => rfl
  | append_singleton ds d ih =>
    rw [foldl_append, ih, reverse_append, reverse_singleton, singleton_append, map_cons,
      Nat.ofDigits_cons]
    simp only [foldl_cons, foldl_nil]
    omega

theorem all_takeWhile {p : Char → Bool} {s : List Char} : ∀ c ∈ s.takeWhile p, p c = true :=
  List.all_eq_true.1 List.all_takeWhile

private theorem numeral_digits_of (s : List Char) : (∀ c ∈ (numeral s).1, c.isDigit = true) ∧
    ((numeral s).2.1 = [] ∨ ∃ places, (numeral s).2.1 = '.' :: places ∧ ∀ c ∈ places, c.isDigit = true) := by
  unfold numeral
  split
  · exact ⟨all_takeWhile, .inr ⟨_, rfl, all_takeWhile⟩⟩
  · exact ⟨all_takeWhile, .inl rfl⟩

private theorem literal_stringBody (s : List Char) :
    (((∃ rest, (stringBody false s).2.2 = '"' :: rest) ∧ Literal (stringBody false s).2.1 (stringBody false s).1) ∨
      ((stringBody false s).2.2 = [] ∧ LiteralOpen (stringBody false s).2.1 (stringBody false s).1)) := by
  induction s using List.twoStepInduction with
  | nil => exact .inr ⟨rfl, .all .nil⟩
  | singleton c =>
    by_cases hq : c = '"'
    · subst hq
      exact .inl ⟨⟨[], rfl⟩, .nil⟩
    · by_cases hb : c = '\\'
      · subst hb
        exact .inr ⟨rfl, .backslash .nil⟩
      · simp only [stringBody, hq, hb, if_false]
        exact .inr ⟨trivial, .all (.plain hq hb .nil)⟩
  | cons_cons c d s ih ih' =>
    by_cases hq : c = '"'
    · subst hq
      exact .inl ⟨⟨_, rfl⟩, .nil⟩
    · by_cases hb : c = '\\'
      · subst hb
        have hbody : stringBody false ('\\' :: d :: s) = (unescape d :: (stringBody false s).1,
            '\\' :: d :: (stringBody false s).2.1, (stringBody false s).2.2) := rfl
        rw [hbody]
        rcases ih with ⟨hrest, h⟩ | ⟨hrest, h⟩
        · exact .inl ⟨hrest, .escaped h⟩
        · exact .inr ⟨hrest, h.escaped⟩
      · have hbody : stringBody false (c :: d :: s) = (c :: (stringBody false (d :: s)).1,
            c :: (stringBody false (d :: s)).2.1, (stringBody false (d :: s)).2.2) := by
          rw [stringBody, if_neg hq, if_neg hb]
        rw [hbody]
        rcases ih' d with ⟨hrest, h⟩ | ⟨hrest, h⟩
        · exact .inl ⟨hrest, .plain hq hb h⟩
        · exact .inr ⟨hrest, h.plain hq hb⟩

/-- What is read up to the closing quote of a pattern. `escaped` says that a backslash stands before it. -/
theorem raw_regexBody (quote : Char) (escaped : Bool) (s : List Char) :
    (∀ before after, (regexBody quote escaped s).1 = before ++ quote :: after →
      before = [] ∧ escaped = true ∨ before.getLast? = some '\\') ∧
    ((regexBody quote escaped s).2 ≠ [] → (regexBody quote escaped s).1 = [] ∧ escaped = false ∨
      ∃ d, (regexBody quote escaped s).1.getLast? = some d ∧ d ≠ '\\') := by
  induction s generalizing escaped with
  | nil => exact ⟨fun before after h => (by cases before <;> cases h), fun h => absurd rfl h⟩
  | cons c cs ih =>
    by_cases hq : c = quote ∧ !escaped
    · rw [regexBody, if_pos hq]
      exact ⟨fun before after h => (by cases before <;> cases h), fun _ => .inl ⟨rfl, by simpa using hq.2⟩⟩
    · have hstep : regexBody quote escaped (c :: cs) =
          (c :: (regexBody quote (c == '\\') cs).1, (regexBody quote (c == '\\') cs).2) := by
        rw [regexBody, if_neg hq]
      rw [hstep]
      obtain ⟨ihe, ihc⟩ := ih (c == '\\')
      refine ⟨fun before after h => ?_, fun hne => .inr ?_⟩
      · cases before with
        | nil =>
          injection h with h
          exact .inl ⟨rfl, by simpa [h] using hq⟩
        | cons d before =>
          injection h with h h'
          subst h
          rcases ihe before after h' with ⟨rfl, hc⟩ | hb
          · exact .inr (by simpa using hc)
          · exact .inr (by rw [getLast?_cons, hb]; rfl)
      · rcases ihc hne with ⟨hnil, hc⟩ | ⟨d, hd, hne⟩
        · exact ⟨c, by rw [hnil]; rfl, by simpa using hc⟩
        · exact ⟨d, by rw [getLast?_cons, hd]; rfl, hne⟩

theorem regexBody_rest (quote : Char) (escaped : Bool) (s : List Char) :
    (regexBody quote escaped s).2 = [] ∨ (regexBody quote escaped s).2.head? = some quote := by
  induction s generalizing escaped with
  | nil => exact .inl rfl
  | cons c cs ih =>
    rw [regexBody]
    split
    · next hq => exact .inr (by rw [hq.1]; rfl)
    · exact ih _

/-- A bracketed comment is closed where its closing mark stands first, or it goes on to the end. -/
theorem blockComment_cases (s : List Char) :
    (∃ body, (blockComment s).1 = body ++ [']', '$'] ∧ ¬[']', '$'] <:+: body ++ [']']) ∨
      (blockComment s).2 = [] ∧ ¬[']', '$'] <:+: (blockComment s).1 := by
  induction s with
  | nil => exact .inr ⟨rfl, by decide⟩
  | cons c cs ih =>
    by_cases hclose : c = ']' ∧ cs.head? = some '$'
    · obtain ⟨rfl, hcs⟩ := hclose
      obtain ⟨ds, rfl⟩ := head?_eq_some_iff.1 hcs
      exact .inl ⟨[], rfl, by decide⟩
    · have hstep : blockComment (c :: cs) = (c :: (blockComment cs).1, (blockComment cs).2) := by
        rw [blockComment]
        rintro ds rfl rfl
        exact hclose ⟨rfl, rfl⟩
      have hcs := blockComment_eq cs
      -- the closing mark does not begin with the first character
      have hfirst (ds : List Char) (hds : ds.head? = some '$' → cs.head? = some '$') (h : ¬[']', '$'] <:+: ds) :
          ¬[']', '$'] <:+: c :: ds := by
        rw [infix_cons_iff, not_or]
        refine ⟨?_, h⟩
        rintro ⟨es, hes⟩
        injection hes with hc hes
        exact hclose ⟨hc.symm, hds (by rw [← hes]; rfl)⟩
      rw [hstep]
      rcases ih with ⟨body, hbody, hno⟩ | ⟨hrest, hno⟩
      · refine .inl ⟨c :: body, by rw [hbody]; rfl, hfirst _ (fun hd => ?_) hno⟩
        rw [← hcs, hbody]
        cases body with
        | nil => cases hd
        | cons d body => exact hd
      · refine .inr ⟨hrest, hfirst _ (fun hd => ?_) hno⟩
        rw [← hcs, hrest, append_nil]
        exact hd

theorem isWordChar_of_isLetter (h : isLetter c = true) : isWordChar c = true := by
  simp only [isLetter, isWordChar, Char.isAlphanum, Bool.or_eq_true] at h ⊢
  rcases h with h | h
  · exact .inl (.inl h)
  · exact .inr h

private theorem not_wordChar_dropWhile (s : List Char) :
    ∀ c, (s.dropWhile isWordChar).head? = some c → isWordChar c = false := by
  intro c h
  have := head?_dropWhile_not isWordChar s
  rw [h] at this
  simpa using this

/-- A longer phrase is a keyword, and blanks stand between its words. -/
theorem phrase_extendPhrase {n : Nat} {phrase longer : String} {cur after : Cursor}
    (h : extendPhrase n phrase cur = .ok (some (longer, after))) :
    longer ∈ keywords ∧ ∃ more, cur.Over more after ∧ ∀ text, Phrase phrase text →
      (∀ c, cur.rest.head? = some c → isWordChar c = false) → Phrase longer (text ++ more) := by
  induction n generalizing phrase cur with
  | zero => cases h
  | succ n ih =>
    have hblanks := over_takeWhile isSpace cur
    have hword := over_takeWhile isWordChar (cur.takeWhile isSpace).2
    have hover := hblanks.trans hword
    rw [extendPhrase] at h
    cases hc : (cur.takeWhile isSpace).2.current? with
    | none => rw [hc] at h; cases h
    | some c =>
      rw [hc] at h
      dsimp only at h
      split at h
      · next hl =>
        have hmore (text : List Char) (hp : Phrase phrase text)
            (hw : ∀ c, cur.rest.head? = some c → isWordChar c = false) :
            Phrase (phrase ++ " " ++ String.ofList ((cur.takeWhile isSpace).2.takeWhile isWordChar).1)
              (text ++ ((cur.takeWhile isSpace).1 ++
                ((cur.takeWhile isSpace).2.takeWhile isWordChar).1)) := by
          rw [← append_assoc]
          refine .more hp (fun hnil => ?_) all_takeWhile
          have hrest : cur.rest = (cur.takeWhile isSpace).2.rest := by
            rw [hblanks.rest, hnil]
            rfl
          have := hw c (by rw [hrest]; exact hc)
          rw [isWordChar_of_isLetter hl] at this
          cases this
        split at h
        · next hk =>
          cases h
          exact ⟨by simpa using hk, _, hover, hmore⟩
        · obtain ⟨hkey, more, ho, hphrase⟩ := ih h
          refine ⟨hkey, _, hover.trans ho, fun text hp hw => ?_⟩
          rw [← append_assoc]
          exact hphrase _ (hmore text hp hw) (not_wordChar_dropWhile _)
      · cases h

/-! ### What a step reads -/

namespace Step

/-- What a step reads: a piece of trivia, or a lexeme of the token that it finds, which starts there. A text without
closing quote goes on to the end, and the position after it is one past that; a pattern without closing quote goes on
to the end, too. -/
def Reads (cur : Cursor) : Step → Prop
  | .trivia after => ∃ text, Trivium text after.rest ∧ cur.Over text after
  | .lexeme (.token t) after => t.start = cur.pos ∧ ((∃ lexeme, Spelled t.kind t.value lexeme ∧ cur.Over lexeme after) ∨
      SpelledOpen t.kind t.value cur.rest ∧ after = ⟨(cur.pos.afterAll cur.rest).next, []⟩)
  | .lexeme (.refused _) after => after.rest = []
  | .refuse _ => True

end Step

section

variable {last : Option Token} {cur after : Cursor} {cs : List Char}

theorem reads_mark {lexeme : List Char} (hs : String.ofList lexeme ∈ kind.spellings)
    (h : cur.Over lexeme after) {stop : Position} : Step.Reads cur (.ofToken (⟨kind, .absent, cur.pos, stop⟩, after)) :=
  ⟨rfl, .inl ⟨lexeme, .mark hs, h⟩⟩

private theorem reads_number (hr : cur.rest = c :: cs) (hc : c.isDigit = true) :
    Step.Reads cur (.ofScanned (scanNumber cur)) := by
  have heq := numeral_eq cur.rest
  obtain ⟨hdigits, hfraction⟩ := numeral_digits_of cur.rest
  have hwhole : (numeral cur.rest).1 ≠ [] := by
    rw [show (numeral cur.rest).1 = cur.rest.takeWhile Char.isDigit by unfold numeral; dsimp only; split <;> rfl, hr,
      takeWhile_cons_of_pos hc]
    simp
  have hover : cur.Over ((numeral cur.rest).1 ++ (numeral cur.rest).2.1)
      (cur.passed ((numeral cur.rest).1 ++ (numeral cur.rest).2.1) (numeral cur.rest).2.2) := over_passed heq
  unfold scanNumber
  dsimp only
  rcases hfraction with hf | ⟨places, hf, hplaces⟩
  · rw [hf, append_nil] at hover ⊢
    cases hv : integerValue (numeral cur.rest).1 with
    | error f => trivial
    | ok v =>
      have hvalue : v = .int (decimal (numeral cur.rest).1) := by
        unfold integerValue at hv
        rw [digitsValue_eq] at hv
        split at hv
        · cases hv
        · split at hv
          · cases hv
          · cases hv
            rfl
      subst hvalue
      exact ⟨rfl, .inl ⟨_, .int hwhole hdigits, hover⟩⟩
  · rw [hf] at hover ⊢
    dsimp only
    cases hv : decimalValue (numeral cur.rest).1 places with
    | error f => trivial
    | ok v =>
      have hvalue : v = .float (Floating.ofDecimal (decimal ((numeral cur.rest).1 ++ places)) places.length) := by
        unfold decimalValue at hv
        rw [digitsValue_eq] at hv
        split at hv
        · cases hv
        · cases hv
          rfl
      subst hvalue
      exact ⟨rfl, .inl ⟨_, .float hwhole hdigits hplaces, hover⟩⟩

private theorem reads_string (hr : cur.rest = '"' :: cs) : Step.Reads cur (.ofToken (scanString cur)) := by
  have hopen : cur.Over ['"'] cur.next := over_next (by rw [current?, hr]; rfl)
  have hinside : cur.next.rest = cs := by
    rw [Cursor.next, hr]
    rfl
  have heq := stringBody_eq false cs
  have hbody : cur.next.Over (stringBody false cs).2.1
      (cur.next.passed (stringBody false cs).2.1 (stringBody false cs).2.2) := over_passed (by rw [heq, hinside])
  unfold scanString
  dsimp only
  rw [hinside]
  refine ⟨rfl, ?_⟩
  rcases literal_stringBody cs with ⟨⟨rest, hrest⟩, h⟩ | ⟨hrest, h⟩
  · refine .inl ⟨_, .string h, ?_⟩
    have hquote : (cur.next.passed (stringBody false cs).2.1 (stringBody false cs).2.2).current? = some '"' := by
      rw [current?, passed, hrest]
      rfl
    exact hopen.trans (hbody.trans (over_next hquote))
  · have hraw : (stringBody false cs).2.1 = cs := by rw [← append_nil (stringBody false cs).2.1, ← hrest, heq]
    refine .inr ⟨?_, ?_⟩
    · rw [hr]
      rw [hraw] at h
      exact .mk h
    · rw [hraw, hrest]
      show Cursor.mk _ _ = _
      rw [current?, passed, hopen.pos, hr]
      rfl

private theorem reads_regex (hr : cur.rest = 'r' :: cs) (h : scanRegex cur = (.ok t, after)) :
    t.start = cur.pos ∧ ∃ lexeme, Spelled t.kind t.value lexeme ∧ cur.Over lexeme after := by
  have hfirst : cur.Over ['r'] cur.next := over_next (by rw [current?, hr]; rfl)
  unfold scanRegex at h
  dsimp only at h
  split at h
  · next quote hquote =>
    have hopen := over_next hquote
    have hbody := over_passed (regexBody_eq quote false cur.next.next.rest)
    split at h
    · next hq =>
      split at h
      · next hclosing =>
        have hclose := over_next hclosing
        obtain ⟨hescaped, hlast⟩ := raw_regexBody quote false cur.next.next.rest
        cases h
        refine ⟨rfl, _, .regex hq ⟨fun before after hb => ?_, ?_⟩, hfirst.trans (hopen.trans (hbody.trans hclose))⟩
        · rcases hescaped before after hb with ⟨-, hf⟩ | hb
          · cases hf
          · exact hb
        · have hne : (regexBody quote false cur.next.next.rest).2 ≠ [] := by
            intro hnil
            rw [current?, passed, hnil] at hclosing
            cases hclosing
          rcases hlast hne with ⟨hnil, -⟩ | ⟨d, hd, hne⟩
          · rw [hnil]
            exact fun h => by cases h
          · rw [hd]
            exact fun h => hne (Option.some.inj h)
      · cases h
    · cases h
  · cases h

private theorem rest_of_refused {d : Diagnostic} {quote : Char} (hq : quote = '"' ∨ quote = '\'')
    (hquote : cur.next.current? = some quote) (h : scanRegex cur = (.error d, after)) : after.rest = [] := by
  unfold scanRegex at h
  dsimp only at h
  rw [hquote] at h
  dsimp only at h
  rw [if_pos hq] at h
  split at h
  · cases h
  · next hclosing =>
    cases h
    exact (regexBody_rest quote false cur.next.next.rest).resolve_right hclosing

private theorem reads_word (hr : cur.rest = c :: cs) (hc : isLetter c = true) :
    Step.Reads cur (.ofWord (scanWord cur)) := by
  have hword := over_takeWhile isWordChar cur
  have hcons : (cur.takeWhile isWordChar).1 = c :: cs.takeWhile isWordChar := by
    show cur.rest.takeWhile _ = _
    rw [hr, takeWhile_cons_of_pos (isWordChar_of_isLetter hc)]
  have hplain : Spelled (if keywords.contains (String.ofList (cur.takeWhile isWordChar).1) then .keyword
      else .identifier) (.text (String.ofList (cur.takeWhile isWordChar).1))
        (cur.takeWhile isWordChar).1 := by
    split
    · next hk => exact .keyword (by simpa using hk) (.word _)
    · next hk =>
      rw [hcons] at hk ⊢
      exact .identifier hc all_takeWhile (by simpa using hk)
  unfold scanWord
  dsimp only
  split
  · next hregex =>
    have hr' : cur.rest = 'r' :: (cur.takeWhile isWordChar).2.rest := by
      rw [hword.rest, show (cur.takeWhile isWordChar).1 = ['r'] from String.ofList_injective hregex.1]
      rfl
    cases hs : scanRegex cur with
    | mk result after =>
      cases result with
      | ok t =>
        obtain ⟨hstart, hlexeme⟩ := reads_regex hr' hs
        exact ⟨hstart, .inl hlexeme⟩
      | error d =>
        have hcurrent : cur.next.current? = (cur.takeWhile isWordChar).2.current? := by
          rw [Cursor.next, hr']
          rfl
        rw [← hcurrent] at hregex
        rcases hregex.2 with hq | hq
        · exact rest_of_refused (.inl rfl) hq hs
        · exact rest_of_refused (.inr rfl) hq hs
  · split
    · cases he : extendPhrase 2 (String.ofList (cur.takeWhile isWordChar).1)
          (cur.takeWhile isWordChar).2 with
      | error stuck => trivial
      | ok found =>
        cases found with
        | none => exact ⟨rfl, .inl ⟨_, hplain, hword⟩⟩
        | some p =>
          obtain ⟨hkey, more, hover, hphrase⟩ := phrase_extendPhrase he
          exact ⟨rfl, .inl ⟨_, .keyword hkey (hphrase _ (.word _) (not_wordChar_dropWhile _)), hword.trans hover⟩⟩
    · exact ⟨rfl, .inl ⟨_, hplain, hword⟩⟩

private theorem reads_comment (hr : cur.rest = '$' :: cs) : Step.Reads cur (.trivia (skipComment cur)) := by
  have hfirst : cur.Over ['$'] cur.next := over_next (by rw [current?, hr]; rfl)
  unfold skipComment
  dsimp only
  split
  · next hopen =>
    have hopened := over_next hopen
    have hbody := over_passed (blockComment_eq cur.next.next.rest)
    have hall := hfirst.trans (hopened.trans hbody)
    refine ⟨_, ?_, hall⟩
    rcases blockComment_cases cur.next.next.rest with ⟨body, hb, hno⟩ | ⟨hrest, hno⟩
    · rw [hb]
      exact .block _ hno
    · rw [hrest]
      exact .unclosed hno
  · next hopen =>
    have hline := over_takeWhile (· != '\n') cur.next
    refine ⟨_, .line ?_ ?_ ?_, hfirst.trans hline⟩
    · intro hhead
      have hbody : (cur.next.takeWhile (· != '\n')).1.head? = some '[' := hhead
      refine hopen ?_
      rw [current?, hline.rest, head?_append, hbody]
      rfl
    · intro hmem
      have := all_takeWhile _ hmem
      simp at this
    · show ((cur.next.rest.dropWhile (· != '\n')).head?.all (· == '\n')) = true
      have := head?_dropWhile_not (· != '\n') cur.next.rest
      cases h : (cur.next.rest.dropWhile (· != '\n')).head? with
      | none => rfl
      | some d =>
        rw [h] at this
        simpa using this

private theorem reads_less (hr : cur.rest = '<' :: cs) : Step.Reads cur (.ofScanned (scanLess last cur)) := by
  have hfirst : cur.Over ['<'] cur.next := over_next (by rw [current?, hr]; rfl)
  have bracket : Step.Reads cur (.ofScanned (.ok (upTo .langle cur cur.next, cur.next))) :=
    reads_mark (by decide) hfirst
  have less : Step.Reads cur (.ofScanned (.ok (upTo .lt cur cur.next, cur.next))) := reads_mark (by decide) hfirst
  unfold scanLess
  dsimp only
  split
  · next he => exact reads_mark (by decide) (hfirst.trans (over_next he))
  split
  · exact bracket
  split
  · exact less
  split
  · trivial
  split
  · exact bracket
  · exact less

private theorem reads_greater (hr : cur.rest = '>' :: cs) : Step.Reads cur (.ofScanned (scanGreater last cur)) := by
  have hfirst : cur.Over ['>'] cur.next := over_next (by rw [current?, hr]; rfl)
  have bracket : Step.Reads cur (.ofScanned (.ok (upTo .rangle cur cur.next, cur.next))) :=
    reads_mark (by decide) hfirst
  have greater : Step.Reads cur (.ofScanned (.ok (upTo .gt cur cur.next, cur.next))) := reads_mark (by decide) hfirst
  have ite {p : Prop} {_ : Decidable p} {x y : Scanned Token} (hx : Step.Reads cur (.ofScanned x))
      (hy : Step.Reads cur (.ofScanned y)) : Step.Reads cur (.ofScanned (if p then x else y)) := by
    split
    · exact hx
    · exact hy
  unfold scanGreater
  dsimp only
  split
  · next he => exact reads_mark (by decide) (hfirst.trans (over_next he))
  split
  · exact greater
  refine ite greater (ite bracket ?_)
  split
  · trivial
  refine ite bracket (ite ?_ greater)
  split
  · trivial
  refine ite bracket ?_
  -- the unifier must not open the table of letters
  generalize Text.isAlphabetic _ = letter
  exact ite bracket greater

private theorem mem_spellings_of_markKind? (h : markKind? c = some kind) : String.ofList [c] ∈ kind.spellings := by
  unfold markKind? at h
  split at h
  all_goals cases h
  all_goals decide

theorem step_reads (hr : cur.rest = c :: cs) : (step last cur c).Reads cur := by
  have hfirst : cur.Over [c] cur.next := over_next (by rw [current?, hr]; rfl)
  refine @step_elim (fun s _ => s.Reads cur) last last cur cur c
    ?blank ?comment ?number ?word ?string ?pair ?notEquals ?equals ?less ?greater ?mark
  case blank => exact fun hc => ⟨_, .blank _ hc, hfirst⟩
  case comment =>
    rintro rfl
    exact reads_comment hr
  case number => exact reads_number hr
  case word => exact reads_word hr
  case string =>
    rintro rfl
    exact reads_string hr
  case pair =>
    intro short long second hm
    unfold scanPair
    dsimp only
    split
    · next hs => exact reads_mark (by cases hm <;> decide) (hfirst.trans (over_next hs))
    · exact reads_mark (by cases hm <;> decide) hfirst
  case notEquals =>
    rintro rfl
    unfold scanNotEquals
    dsimp only
    split
    · next hs => exact reads_mark (by decide) (hfirst.trans (over_next hs))
    · trivial
  case equals =>
    rintro rfl
    unfold scanEquals
    dsimp only
    split
    · next hs => exact reads_mark (by decide) (hfirst.trans (over_next hs))
    · next hs => exact reads_mark (by decide) (hfirst.trans (over_next hs))
    · exact ⟨rfl, .inl ⟨_, .equals, hfirst⟩⟩
  case less =>
    rintro rfl
    exact reads_less hr
  case greater =>
    rintro rfl
    exact reads_greater hr
  case mark =>
    unfold Step.ofMark
    cases hm : markKind? c with
    | some kind => exact reads_mark (mem_spellings_of_markKind? hm) hfirst
    | none => trivial

theorem Spelled.ne {value : Scalar} {lexeme : List Char} (h : Spelled kind value lexeme) :
    lexeme ≠ [] ∧ kind ≠ .eof := by
  cases h with
  | int hne => exact ⟨hne, nofun⟩
  | float hne => exact ⟨append_ne_nil_of_left_ne_nil hne _, nofun⟩
  | string | regex | identifier | equals => exact ⟨nofun, nofun⟩
  | keyword hk hp =>
    refine ⟨?_, nofun⟩
    cases hp with
    | word w =>
      rintro rfl
      exact absurd hk (by decide)
    | more _ hne _ => simp [hne]
  | mark hs =>
    refine ⟨?_, ?_⟩
    · rintro rfl
      cases kind <;> exact absurd hs (by decide)
    · rintro rfl
      cases hs

theorem Trivium.ne_nil {text : List Char} (h : Trivium text rest) : text ≠ [] := by
  cases h <;> exact cons_ne_nil _ _

/-- A step passes a part of the text, or it leaves nothing. -/
theorem over_of_step (hr : cur.rest = c :: cs) (h : (step last cur c).after? = some after) :
    after.rest = [] ∨ ∃ text, text ≠ [] ∧ cur.Over text after := by
  have hreads : (step last cur c).Reads cur := step_reads hr
  cases hs : step last cur c with
  | trivia mid =>
    rw [hs] at h hreads
    cases h
    obtain ⟨text, htext, hover⟩ := hreads
    exact .inr ⟨text, htext.ne_nil, hover⟩
  | lexeme x mid =>
    rw [hs] at h hreads
    cases h
    cases x with
    | token t =>
      rcases hreads.2 with ⟨text, htext, hover⟩ | ⟨-, rfl⟩
      · exact .inr ⟨text, htext.ne.1, hover⟩
      · exact .inl rfl
    | refused d => exact .inl hreads
  | refuse r =>
    rw [hs] at h
    cases h

theorem token_of_step (hr : cur.rest = c :: cs) (h : step last cur c = .lexeme (.token t) after) :
    t.start = cur.pos ∧ t.kind ≠ .eof := by
  have hreads : (step last cur c).Reads cur := step_reads hr
  rw [h] at hreads
  obtain ⟨hstart, ⟨lexeme, hspelled, -⟩ | ⟨hspelled, -⟩⟩ := hreads
  · exact ⟨hstart, hspelled.ne.2⟩
  · refine ⟨hstart, fun hk => ?_⟩
    rw [hk] at hspelled
    cases hspelled

end

end Token

end Utterance

import Utterance.Proofs.Datum
import Utterance.Proofs.Marks
import Utterance.Proofs.QuotedLiterals

/-!
# The tokens of data

`Datum.marks` lists what the tokens of a datum hold, and `scans_datum` says that scanning a writable datum gives these
tokens. Whether `<` and `>` are brackets or comparisons depends on what stands around them: before a datum stands
nothing after which `<` compares (`Opening`), and after it stands one of the `followers`, before which `>` closes.
-/

namespace Utterance

open List Cursor Datum

open Token (Kind Step)

variable {c : Char} {cs : List Char} {cur : Cursor} {last : Option Token} {m : Mark} {p : Char → Bool}
  {ts : List Token}

/-- The tokens of an integer: a sign is a token of its own. -/
def intMarks (n : Int) : List Mark :=
  if n < 0 then [bare .minus, (.int, .int n.natAbs)] else [(.int, .int n.natAbs)]

def Key.marks : Key → List Mark
  | .int n => intMarks n
  | .text s => [(.string, .text s)]

namespace Datum

mutual

def marks : Datum → List Mark
  | int n => intMarks n
  | text s => [(.string, .text s)]
  | list ds => bare .lsquare :: (elementMarks ds ++ [bare .rsquare])
  | tuple ds => bare .langle :: (elementMarks ds ++ [bare .rangle])
  | dict es => bare .lcurly :: (entryMarks es ++ [bare .rcurly])

def elementMarks : List Datum → List Mark
  | [] => []
  | d :: ds => marks d ++ moreElementMarks ds

def moreElementMarks : List Datum → List Mark
  | [] => []
  | d :: ds => bare .comma :: (marks d ++ moreElementMarks ds)

def entryMarks : List (Key × Datum) → List Mark
  | [] => []
  | (k, d) :: es => k.marks ++ bare .colon :: (marks d ++ moreEntryMarks es)

def moreEntryMarks : List (Key × Datum) → List Mark
  | [] => []
  | (k, d) :: es => bare .comma :: (k.marks ++ bare .colon :: (marks d ++ moreEntryMarks es))

end

end Datum

/-! ### Tokens one after another -/

namespace Token

def lastOf (last : Option Token) : List Token → Option Token
  | [] => last
  | t :: ts => lastOf (some t) ts

/-- A scan comes from one cursor to another and finds some tokens on the way. -/
inductive Scans : Option Token → Cursor → List Token → Cursor → Prop
  | done (last : Option Token) (cur : Cursor) : Scans last cur [] cur
  | trivia {last cur after cur' c cs ts} : cur.rest = c :: cs → step last cur c = .trivia after →
    Scans last after ts cur' → Scans last cur ts cur'
  | token {last cur after cur' c cs t ts} : cur.rest = c :: cs → step last cur c = .lexeme (.token t) after →
    Scans (some t) after ts cur' → Scans last cur (t :: ts) cur'

namespace Scans

theorem append {mid cur' : Cursor} {us : List Token} (h : Scans last cur ts mid)
    (h' : Scans (lastOf last ts) mid us cur') : Scans last cur (ts ++ us) cur' := by
  induction h with
  | done => exact h'
  | trivia hr hs _ ih => exact .trivia hr hs (ih h')
  | token hr hs _ ih => exact .token hr hs (ih h')

theorem scanRest {cur' : Cursor} (h : Scans last cur ts cur')
    {xs : List Lexeme} (hx : scanRest (lastOf last ts) cur' = .ok xs) :
    Token.scanRest last cur = .ok (ts.map .token ++ xs) := by
  induction h with
  | done => exact hx
  | trivia hr hs _ ih =>
    rw [scanRest_cons hr, hs]
    exact ih hx
  | token hr hs _ ih =>
    rw [scanRest_cons hr, hs]
    show Except.map _ (Token.scanRest _ _) = _
    rw [ofLexeme?, ih hx]
    rfl

end Scans

private theorem lastOf_append (last : Option Token) (ts us : List Token) :
    lastOf last (ts ++ us) = lastOf (lastOf last ts) us := by
  induction ts generalizing last with
  | nil => rfl
  | cons t ts ih => exact ih (some t)

/-- After a token of the kind `k`, the text `cs` is scanned as the tokens `ms` up to where `cs'` is left, and the last
token is then of the kind `k'`. -/
def Spells (k : Option Kind) (cs : List Char) (ms : List Mark) (k' : Option Kind) (cs' : List Char) : Prop :=
  ∀ last cur, last.map Token.kind = k → cur.rest = cs → ∃ ts cur', Scans last cur ts cur' ∧ cur'.rest = cs' ∧
    ts.map content = ms ∧ (lastOf last ts).map Token.kind = k'

namespace Spells

variable {k k' k'' : Option Kind} {cs cs' cs'' : List Char} {ms ms' : List Mark}

theorem refl (k : Option Kind) (cs : List Char) : Spells k cs [] k cs :=
  fun last cur hl hr => ⟨[], cur, .done last cur, hr, rfl, hl⟩

theorem trans (h : Spells k cs ms k' cs') (h' : Spells k' cs' ms' k'' cs'') : Spells k cs (ms ++ ms') k'' cs'' := by
  intro last cur hl hr
  obtain ⟨ts, mid, hs, hm, hts, hk⟩ := h last cur hl hr
  obtain ⟨us, cur', hs', hr', hus, hk'⟩ := h' _ mid hk hm
  refine ⟨ts ++ us, cur', hs.append hs', hr', ?_, ?_⟩
  · rw [map_append, hts, hus]
  · rw [lastOf_append]
    exact hk'

theorem cons (h : Spells k (c :: cs) [m] k' cs') (h' : Spells k' cs' ms k'' cs'') :
    Spells k (c :: cs) (m :: ms) k'' cs'' := h.trans h'

theorem token (h : ∀ last cur, last.map Token.kind = k → cur.rest = c :: cs →
    ∃ t after, step last cur c = .lexeme (.token t) after ∧ after.rest = cs' ∧ t.content = m) :
    Spells k (c :: cs) [m] (some m.1) cs' := by
  intro last cur hl hr
  obtain ⟨t, after, hs, ha, rfl⟩ := h last cur hl hr
  exact ⟨[t], after, .token hr hs (.done _ _), ha, rfl, rfl⟩

theorem mark {kind : Kind}
    (h : ∀ last cur, cur.rest = c :: cs → step last cur c = .ofToken (mark kind cur.pos, cur.next)) :
    Spells k (c :: cs) [bare kind] (some kind) cs :=
  .token fun last cur _ hr => ⟨_, _, h last cur hr, by rw [Cursor.next, hr]; rfl, rfl⟩

theorem blank : Spells k (' ' :: cs) [] k cs := by
  intro last cur hl hr
  refine ⟨[], cur.next, .trivia hr rfl (.done _ _), ?_, rfl, hl⟩
  rw [Cursor.next, hr]
  rfl

end Spells

private theorem digitsValue_toDigits (n : Nat) : digitsValue (Nat.toDigits 10 n) = n := by
  have h : digitsValue (Nat.toDigits 10 n) = Nat.ofDigitChars 10 (Nat.toDigits 10 n) 0 := by
    unfold digitsValue Nat.ofDigitChars
    congr 1
    funext a c
    rw [Nat.mul_comm]
  rw [h, Nat.ofDigitChars_toDigits (by decide) (by decide)]

variable {rest : List Char} {c : Char} {k : Option Kind}

private theorem takeWhile_append_stop (hp : ∀ x ∈ cs, p x = true) (hc : p c = false) :
    (cs ++ c :: rest).takeWhile p = cs := by
  rw [takeWhile_append_of_pos hp, takeWhile_cons_of_neg (by simp [hc]), append_nil]

private theorem dropWhile_append_stop (hp : ∀ x ∈ cs, p x = true)
    (hc : p c = false) : (cs ++ c :: rest).dropWhile p = c :: rest := by
  rw [dropWhile_append_of_pos hp, dropWhile_cons_of_neg (by simp [hc])]

private theorem numeral_digits {ds : List Char} (hd : ∀ x ∈ ds, x.isDigit = true) (hc : c.isDigit = false)
    (hp : c ≠ '.') : numeral (ds ++ c :: rest) = (ds, [], c :: rest) := by
  unfold numeral
  rw [takeWhile_append_stop hd hc, dropWhile_append_stop hd hc]
  split
  · next h => injection h with h; exact absurd h hp
  · rfl

private theorem isSpace_of_isDigit (h : c.isDigit = true) : isSpace c = false := by
  cases hs : isSpace c with
  | false => rfl
  | true =>
    simp only [isSpace, Bool.or_eq_true, beq_iff_eq] at hs
    rcases hs with rfl | rfl <;> exact absurd h (by decide)

private theorem step_digit (h : c.isDigit = true) : step last cur c = .ofScanned (scanNumber cur) := by
  have hd : c ≠ '$' := by
    rintro rfl
    exact absurd h (by decide)
  unfold step
  rw [if_neg (by rw [isSpace_of_isDigit h]; decide), if_neg hd, if_pos h]

private theorem spells_nat {n : Nat} (hn : (Nat.toDigits 10 n).length ≤ Fault.digitLimit) (hc : c.isDigit = false)
    (hp : c ≠ '.') :
    Spells k (Nat.toDigits 10 n ++ c :: rest) [(.int, .int n)] (some .int) (c :: rest) := by
  obtain ⟨d, ds, hds⟩ : ∃ d ds, Nat.toDigits 10 n = d :: ds := exists_cons_of_ne_nil Nat.toDigits_ne_nil
  have hdigits : ∀ x ∈ Nat.toDigits 10 n, x.isDigit = true := fun x hx =>
    Nat.isDigit_of_mem_toDigits (by decide) (by decide) hx
  have hvalue : integerValue (Nat.toDigits 10 n) = .ok (.int n) := by
    unfold integerValue
    rw [if_neg (by simp [Nat.toDigits_ne_nil]), if_neg (by omega), digitsValue_toDigits]
  rw [hds, cons_append]
  refine .token fun last cur _ hr => ?_
  rw [← cons_append, ← hds] at hr
  have hscan : scanNumber cur = .ok (⟨.int, .int n, cur.pos, (cur.passed (Nat.toDigits 10 n ++ []) (c :: rest)).pos⟩,
      cur.passed (Nat.toDigits 10 n ++ []) (c :: rest)) := by
    unfold scanNumber
    rw [hr, numeral_digits hdigits hc hp]
    dsimp only
    rw [hvalue]
  have hstep : step last cur d = .ofScanned (scanNumber cur) := step_digit (hdigits d (by rw [hds]; simp))
  rw [hscan] at hstep
  exact ⟨_, _, hstep, rfl, rfl⟩

private theorem spells_int {n : Int} (hn : ShortInt n) (hc : c.isDigit = false) (hp : c ≠ '.') :
    Spells k (intChars n ++ c :: rest) (intMarks n) (some .int) (c :: rest) := by
  unfold intChars intMarks
  split
  · exact .cons (.mark fun _ _ _ => rfl) (spells_nat hn hc hp)
  · exact spells_nat hn hc hp

private theorem spells_text {s : String} (hs : PlainText s) :
    Spells k (textChars s ++ rest) [(.string, .text s)] (some .string) rest := by
  have hchars : textChars s ++ rest = '"' :: s.toList ++ '"' :: rest := by simp [textChars]
  rw [hchars]
  refine .token fun last cur _ hr => ?_
  obtain ⟨p, _⟩ := cur
  subst hr
  have hstep (cur : Cursor) : step last cur '"' = .ofToken (scanString cur) := rfl
  have hscan := (Escapes.self hs.1 hs.2).scanString p rest
  rw [String.ofList_toList] at hscan
  exact ⟨_, _, (hstep _).trans (congrArg Step.ofToken hscan), rfl, rfl⟩

def followers : List Char := [',', ']', '>', '}', ';']

private theorem isDigit_follower (h : c ∈ followers) : c.isDigit = false ∧ c ≠ '.' := by
  have all : followers.all (fun x => !x.isDigit && x != '.') = true := by decide
  simpa using all_eq_true.1 all c h

/-- Nothing stands before a datum after which `<` compares. -/
def Opening (k : Option Kind) : Prop := ∀ kind, k = some kind → comparedKinds.contains kind = false

end Token

namespace Datum

def lastKind : Datum → Kind
  | int _ => .int
  | text _ => .string
  | list _ => .rsquare
  | tuple _ => .rangle
  | dict _ => .rcurly

end Datum

namespace Token

private theorem intChars_cons (n : Int) : ∃ c cs, intChars n = c :: cs ∧ (c = '-' ∨ c.isDigit = true) := by
  unfold intChars
  split
  · exact ⟨_, _, rfl, .inl rfl⟩
  · obtain ⟨d, ds, hds⟩ : ∃ d ds, Nat.toDigits 10 n.natAbs = d :: ds := exists_cons_of_ne_nil Nat.toDigits_ne_nil
    refine ⟨d, ds, hds, .inr (Nat.isDigit_of_mem_toDigits (b := 10) (n := n.natAbs) (by decide) (by decide) ?_)⟩
    rw [hds]
    simp

private theorem chars_cons (d : Datum) :
    ∃ c cs, d.chars = c :: cs ∧ (c.isDigit = true ∨ c ∈ ['-', '"', '[', '<', '{']) := by
  cases d with
  | int n =>
    obtain ⟨c, cs, h, hc⟩ := intChars_cons n
    refine ⟨c, cs, h, ?_⟩
    rcases hc with rfl | hc
    · exact .inr (by simp)
    · exact .inl hc
  | text | list | tuple | dict => exact ⟨_, _, rfl, .inr (by simp)⟩

variable {cs : List Char} {es : List (Key × Datum)} {c : Char} {k : Option Kind} {kind : Kind} {ds : List Datum}

private theorem ne_of_isDigit {x : Char} (h : c.isDigit = true) (hx : x.isDigit = false) : c ≠ x := by
  rintro rfl
  rw [h] at hx
  cases hx

private theorem spells_langle (hk : Opening k) (hc : c.isDigit = true ∨ c ∈ ['-', '"', '[', '<', '{', '>']) :
    Spells k ('<' :: c :: cs) [bare .langle] (some .langle) (c :: cs) := by
  refine .token fun last cur hl hr => ?_
  have hin : cur.next.rest = c :: cs := by rw [Cursor.next, hr]; rfl
  have hcur : cur.next.current? = some c := by rw [current?, hin]; rfl
  have heq : c ≠ '=' := by
    rcases hc with hc | hc
    · exact ne_of_isDigit hc (by decide)
    · rintro rfl; exact absurd hc (by decide)
  have hscan : scanLess last cur = .ok (upTo .langle cur cur.next, cur.next) := by
    unfold scanLess
    dsimp only
    rw [hcur, if_neg (by simpa using heq)]
    by_cases hgt : c = '>'
    · rw [if_pos (by rw [hgt])]
    rw [if_neg (by simpa using hgt), if_neg]
    · have hspace : isSpace c = false := by
        rcases hc with hc | hc
        · exact isSpace_of_isDigit hc
        · have all : ['-', '"', '[', '<', '{', '>'].all (!isSpace ·) = true := by decide
          simpa using all_eq_true.1 all c hc
      have hopens : opensElement c = true := by
        rcases hc with hc | hc
        · simp [opensElement, hc]
        · have all : ['-', '"', '[', '<', '{', '>'].all opensElement = true := by decide
          exact all_eq_true.1 all c hc
      rw [hin, dropWhile_cons_of_neg (by simp [hspace])]
      dsimp only
      rw [if_pos hopens]
    · cases last with
      | none => simp
      | some t => simpa using hk t.kind hl.symm
  refine ⟨upTo .langle cur cur.next, cur.next, ?_, hin, rfl⟩
  show Step.ofScanned (scanLess last cur) = _
  rw [hscan]
  rfl

private theorem spells_rangle (hk : closedKinds.contains kind = true) (hc : c ∈ followers) :
    Spells (some kind) ('>' :: c :: cs) [bare .rangle] (some .rangle) (c :: cs) := by
  refine .token fun last cur hl hr => ?_
  obtain _ | t := last
  · cases hl
  obtain rfl : t.kind = kind := Option.some.inj hl
  have hin : cur.next.rest = c :: cs := by rw [Cursor.next, hr]; rfl
  have hcur : cur.next.current? = some c := by rw [current?, hin]; rfl
  have heq : c ≠ '=' := by
    rintro rfl
    exact absurd hc (by decide)
  have hcloses : [',', ';', '\n', ')', ']', '}', '>'].contains c = true := by
    have all : followers.all [',', ';', '\n', ')', ']', '}', '>'].contains = true := by decide
    exact all_eq_true.1 all c hc
  have hscan : scanGreater (some t) cur = .ok (upTo .rangle cur cur.next, cur.next) := by
    unfold scanGreater
    dsimp only
    rw [hcur, if_neg (by simpa using heq), if_neg (by rw [endsElement, hk, Bool.true_or, Bool.true_or]; decide)]
    by_cases hlangle : t.kind = .langle
    · rw [if_pos hlangle]
    · rw [if_neg hlangle, hin]
      dsimp only
      rw [if_pos hcloses]
  refine ⟨upTo .rangle cur cur.next, cur.next, ?_, hin, rfl⟩
  show Step.ofScanned (scanGreater (some t) cur) = _
  rw [hscan]
  rfl

private theorem spells_lcurly (hc : c ≠ ':') : Spells k ('{' :: c :: cs) [bare .lcurly] (some .lcurly) (c :: cs) := by
  refine .mark fun last cur hr => ?_
  have hcur : cur.next.current? = some c := by rw [current?, Cursor.next, hr]; rfl
  show Step.ofToken (scanPair .lcurly .lsetbrace ':' cur) = _
  rw [scanPair, hcur, if_neg (by simpa using hc)]

private theorem spells_colon : Spells k (':' :: ' ' :: cs) [bare .colon] (some .colon) cs := by
  refine Spells.cons (.mark fun last cur hr => ?_) .blank
  have hcur : cur.next.current? = some ' ' := by rw [current?, Cursor.next, hr]; rfl
  show Step.ofToken (scanPair .colon .rsetbrace '}' cur) = _
  rw [scanPair, hcur, if_neg (by decide)]

private theorem spells_comma : Spells k (',' :: ' ' :: cs) [bare .comma] (some .comma) cs :=
  Spells.cons (.mark fun _ _ _ => rfl) .blank

private theorem spells_key (k : Option Kind) {key : Key} (cs : List Char) (h : key.Writable) :
    ∃ k', Spells k (key.chars ++ ':' :: cs) key.marks k' (':' :: cs) := by
  cases key with
  | int n => exact ⟨_, spells_int h (by decide) (by decide)⟩
  | text s => exact ⟨_, spells_text h⟩

/-! ### Data -/

/-- A datum is scanned as its tokens wherever it may stand. -/
def SpellsDatum (d : Datum) : Prop :=
  ∀ {k : Option Kind} {f : Char} {rest : List Char}, Opening k → f ∈ followers →
    Spells k (d.chars ++ f :: rest) d.marks (some d.lastKind) (f :: rest)

/-- The kind of the last token when elements follow a token of a kind. -/
def lastKindOf (kind : Kind) : List Datum → Kind
  | [] => kind
  | d :: ds => lastKindOf d.lastKind ds

private theorem more_cons (ds : List Datum) (hc : c ∈ followers) (rest : List Char) :
    ∃ f rest', moreElementChars ds ++ c :: rest = f :: rest' ∧ f ∈ followers := by
  cases ds with
  | nil => exact ⟨c, rest, rfl, hc⟩
  | cons d ds => exact ⟨',', _, rfl, by decide⟩

private theorem moreEntries_cons (es : List (Key × Datum)) (rest : List Char) :
    ∃ f rest', moreEntryChars es ++ '}' :: rest = f :: rest' ∧ f ∈ followers := by
  cases es with
  | nil => exact ⟨'}', rest, rfl, by decide⟩
  | cons e es => exact ⟨',', _, rfl, by decide⟩

private theorem opening_of (h : comparedKinds.contains kind = false) : Opening (some kind) := by
  rintro _ ⟨⟩
  exact h

section

variable (hds : ∀ d ∈ ds, SpellsDatum d) (hc : c ∈ followers) (rest : List Char)
include hds hc

private theorem spells_more (kind : Kind) :
    Spells (some kind) (moreElementChars ds ++ c :: rest) (moreElementMarks ds)
      (some (lastKindOf kind ds)) (c :: rest) := by
  induction ds generalizing kind with
  | nil => exact .refl _ _
  | cons d ds ih =>
    obtain ⟨f, rest', htail, hf⟩ := more_cons ds hc rest
    have hd : Spells (some .comma) (d.chars ++ f :: rest') d.marks (some d.lastKind) (f :: rest') :=
      hds d (by simp) (opening_of rfl) hf
    have hmore := ih (fun d hm => hds d (by simp [hm])) d.lastKind
    rw [moreElementChars, moreElementMarks, cons_append, cons_append, append_assoc]
    rw [← htail] at hd
    exact spells_comma.cons (hd.trans hmore)

private theorem spells_elements (hk : comparedKinds.contains kind = false) :
    Spells (some kind) (elementChars ds ++ c :: rest) (elementMarks ds)
      (some (lastKindOf kind ds)) (c :: rest) := by
  cases ds with
  | nil => exact .refl _ _
  | cons d ds =>
    obtain ⟨f, rest', htail, hf⟩ := more_cons ds hc rest
    have hd : Spells (some kind) (d.chars ++ f :: rest') d.marks (some d.lastKind) (f :: rest') :=
      hds d (by simp) (opening_of hk) hf
    have htl : ∀ d ∈ ds, SpellsDatum d := fun d hm => hds d (mem_cons_of_mem _ hm)
    have hmore := spells_more htl hc rest d.lastKind
    rw [elementChars, elementMarks, append_assoc]
    rw [← htail] at hd
    exact hd.trans hmore

end

variable {d : Datum}

private theorem spells_entry {k : Key} (hk : k.Writable) (hd : SpellsDatum d) (kind : Option Kind) {rest : List Char}
    {k' : Option Kind} {ms : List Mark}
    (hmore : Spells (some d.lastKind) (moreEntryChars es ++ '}' :: rest) ms k' ('}' :: rest)) :
    Spells kind (k.chars ++ ':' :: ' ' :: (d.chars ++ (moreEntryChars es ++ '}' :: rest)))
      (k.marks ++ bare .colon :: (d.marks ++ ms)) k' ('}' :: rest) := by
  obtain ⟨k'', hkey⟩ := spells_key kind (' ' :: (d.chars ++ (moreEntryChars es ++ '}' :: rest))) hk
  obtain ⟨f, rest', htail, hf⟩ := moreEntries_cons es rest
  have hvalue : Spells (some .colon) (d.chars ++ f :: rest') d.marks (some d.lastKind) (f :: rest') :=
    hd (opening_of rfl) hf
  rw [← htail] at hvalue
  exact hkey.trans (spells_colon.cons (hvalue.trans hmore))

section

variable (hk : ∀ e ∈ es, e.1.Writable) (hes : ∀ e ∈ es, SpellsDatum e.2) (rest : List Char) (kind : Kind)
include hk hes

private theorem spells_moreEntries :
    ∃ k', Spells (some kind) (moreEntryChars es ++ '}' :: rest) (moreEntryMarks es) k' ('}' :: rest) := by
  induction es generalizing kind with
  | nil => exact ⟨_, .refl _ _⟩
  | cons e es ih =>
    obtain ⟨key, d⟩ := e
    obtain ⟨k', hmore⟩ := ih (fun e hm => hk e (by simp [hm])) (fun e hm => hes e (by simp [hm])) d.lastKind
    refine ⟨k', ?_⟩
    have hentry := spells_entry (hk (key, d) (by simp)) (hes (key, d) (by simp)) (some .comma) hmore
    rw [moreEntryChars, moreEntryMarks]
    simp only [cons_append, append_assoc]
    exact spells_comma.cons hentry

private theorem spells_entries :
    ∃ k', Spells (some kind) (entryChars es ++ '}' :: rest) (entryMarks es) k' ('}' :: rest) := by
  cases es with
  | nil => exact ⟨_, .refl _ _⟩
  | cons e es =>
    obtain ⟨key, d⟩ := e
    have hktl : ∀ e ∈ es, e.1.Writable := fun e hm => hk e (mem_cons_of_mem _ hm)
    have htl : ∀ e ∈ es, SpellsDatum e.2 := fun e hm => hes e (mem_cons_of_mem _ hm)
    obtain ⟨k', hmore⟩ := spells_moreEntries hktl htl rest d.lastKind
    refine ⟨k', ?_⟩
    have hentry := spells_entry (hk (key, d) (by simp)) (hes (key, d) (by simp)) (some kind) hmore
    rw [entryChars, entryMarks]
    simp only [cons_append, append_assoc]
    exact hentry

end

/-- After the last element of a tuple, unless it is a dictionary, `>` can close the tuple. -/
theorem closed_lastKindOf (hk : ds = [] → closedKinds.contains kind = true)
    (hd : ∀ es, ds.getLast? ≠ some (.dict es)) : closedKinds.contains (lastKindOf kind ds) = true := by
  induction ds generalizing kind with
  | nil => exact hk rfl
  | cons d ds ih =>
    refine ih ?_ fun es h => hd es ?_
    · rintro rfl
      cases d with
      | dict es => exact absurd rfl (hd es)
      | int _ | text _ | list _ | tuple _ => rfl
    · rw [getLast?_cons, h]
      rfl

private theorem elements_head (ds : List Datum) (rest : List Char) : ∃ c cs,
    elementChars ds ++ '>' :: rest = c :: cs ∧ (c.isDigit = true ∨ c ∈ ['-', '"', '[', '<', '{', '>']) := by
  cases ds with
  | nil => exact ⟨'>', rest, rfl, .inr (by simp)⟩
  | cons d ds =>
    obtain ⟨c, cs, h, hc⟩ := chars_cons d
    refine ⟨c, cs ++ (moreElementChars ds ++ '>' :: rest), ?_, hc.imp id fun hm => ?_⟩
    · rw [elementChars, h]
      simp
    · exact mem_append_left ['>'] hm

private theorem entries_head (es : List (Key × Datum)) (rest : List Char) : ∃ c cs,
    entryChars es ++ '}' :: rest = c :: cs ∧ c ≠ ':' := by
  cases es with
  | nil => exact ⟨'}', rest, rfl, by decide⟩
  | cons e es =>
    obtain ⟨key, d⟩ := e
    cases key with
    | text s => exact ⟨'"', _, rfl, by decide⟩
    | int n =>
      obtain ⟨c, cs, h, hc⟩ := intChars_cons n
      refine ⟨c, cs ++ (':' :: ' ' :: (d.chars ++ moreEntryChars es) ++ '}' :: rest), ?_, ?_⟩
      · rw [entryChars, Key.chars, h]
        simp
      · rcases hc with rfl | hc
        · decide
        · exact ne_of_isDigit hc (by decide)

/-- Where a writable datum may stand, it is scanned as its tokens. -/
theorem spells_datum (hw : Writable d) : SpellsDatum d := by
  induction hw with
  | int hn =>
    intro k f rest _ hf
    exact spells_int hn (isDigit_follower hf).1 (isDigit_follower hf).2
  | text ht =>
    intro k f rest _ _
    exact spells_text ht
  | @list ds _ ih =>
    intro k f rest _ _
    have hall : Spells (some .lsquare) _ _ _ _ := spells_elements ih (c := ']') (by decide) (f :: rest) rfl
    rw [chars, marks, cons_append, append_assoc]
    exact Spells.cons (.mark fun _ _ _ => rfl) (hall.trans (.mark fun _ _ _ => rfl))
  | @tuple ds _ hlast ih =>
    intro k f rest hk hf
    have hall : Spells (some .langle) _ _ _ _ := spells_elements ih (c := '>') (by decide) (f :: rest) rfl
    have hclosed : closedKinds.contains (lastKindOf .langle ds) = true := closed_lastKindOf (fun _ => rfl) hlast
    obtain ⟨c, cs, hhead, hc⟩ := elements_head ds (f :: rest)
    have hopen : Spells k ('<' :: c :: cs) [bare .langle] (some .langle) (c :: cs) := spells_langle hk hc
    rw [← hhead] at hopen
    rw [chars, marks, cons_append, append_assoc]
    exact hopen.cons (hall.trans (spells_rangle hclosed hf))
  | @dict es _ hkeys _ ih =>
    intro k f rest _ _
    obtain ⟨k', hentries⟩ := spells_entries hkeys ih (f :: rest) .lcurly
    obtain ⟨c, cs, hhead, hc⟩ := entries_head es (f :: rest)
    have hopen : Spells k ('{' :: c :: cs) [bare .lcurly] (some .lcurly) (c :: cs) := spells_lcurly hc
    rw [← hhead] at hopen
    rw [chars, marks, cons_append, append_assoc]
    exact hopen.cons (hentries.trans (.mark fun _ _ _ => rfl))

theorem scan_datum (hw : Writable d) (name : String) :
    ∃ ts : List Token, scan ⟨name, String.ofList (d.chars ++ [';'])⟩ = .ok (ts.map .token) ∧
      ts.map content = d.marks ++ [bare .newline, bare .eof] := by
  have hd : Spells none (d.chars ++ ';' :: []) d.marks (some d.lastKind) (';' :: []) :=
    spells_datum hw (fun _ h => nomatch h) (by decide)
  have hall : Spells none _ (d.marks ++ [bare .newline]) (some .newline) [] := hd.trans (.mark fun _ _ _ => rfl)
  obtain ⟨ts, cur, hscans, hrest, hts, -⟩ := hall none (.start ⟨name, String.ofList (d.chars ++ [';'])⟩) rfl
    (by simp [Cursor.start])
  refine ⟨ts ++ [mark .eof cur.pos], ?_, ?_⟩
  · rw [scan_eq, hscans.scanRest (scanRest_nil hrest), map_append]
    rfl
  · rw [map_append, hts, append_assoc]
    rfl

end Token

end Utterance

import Utterance.Proofs.Scanning

/-!
# Scanning at another place

A shift moves positions by some characters and lines into another source. Scanning the same text at a shifted place
finds the same with all positions shifted, whatever comes of it: lexemes, a diagnostic or a fault (`scanRest_shift`).
What was found before matters only as far as a line end is no different from nothing (`Sees`).
-/

namespace Utterance

open Cursor

/-- By how many characters and lines positions are moved, and the source where they are then. -/
structure Shift where
  idx : Int
  ln : Int
  source : Source

def Position.shift (δ : Shift) (p : Position) : Position := ⟨p.idx + δ.idx, p.ln + δ.ln, p.col, δ.source⟩

namespace Position

variable (δ : Shift) (p : Position)

@[simp] theorem next_shift : (p.shift δ).next = p.next.shift δ := by
  simp only [shift, next, mk.injEq, and_self, and_true]
  omega

@[simp] theorem after_shift (c : Char) : (p.shift δ).after c = (p.after c).shift δ := by
  unfold after
  split
  · simp only [shift, mk.injEq, and_self, and_true]
    omega
  · exact next_shift δ p

@[simp] theorem advance_shift (c : Option Char) : (p.shift δ).advance c = (p.advance c).shift δ := by
  cases c with
  | none => exact next_shift δ p
  | some c => exact after_shift δ p c

@[simp] theorem afterAll_shift (cs : List Char) : (p.shift δ).afterAll cs = (p.afterAll cs).shift δ := by
  unfold afterAll
  induction cs generalizing p with
  | nil => rfl
  | cons c cs ih => rw [List.foldl_cons, List.foldl_cons, after_shift, ih]

end Position

def Cursor.shift (δ : Shift) (cur : Cursor) : Cursor := ⟨cur.pos.shift δ, cur.rest⟩

namespace Cursor

variable (δ : Shift) (cur : Cursor)

@[simp] theorem rest_shift : (cur.shift δ).rest = cur.rest := rfl

@[simp] theorem pos_shift : (cur.shift δ).pos = cur.pos.shift δ := rfl

@[simp] theorem current?_shift : (cur.shift δ).current? = cur.current? := rfl

@[simp] theorem nextWord_shift : (cur.shift δ).nextWord = cur.nextWord := rfl

@[simp] theorem next_shift : (cur.shift δ).next = cur.next.shift δ := by
  rw [next, current?_shift, pos_shift, Position.advance_shift]
  rfl

@[simp] theorem passed_shift (raw rest : List Char) :
    (cur.shift δ).passed raw rest = (cur.passed raw rest).shift δ := by
  unfold passed
  simp [shift]

@[simp] theorem takeWhile_shift (p : Char → Bool) :
    (cur.shift δ).takeWhile p = ((cur.takeWhile p).1, (cur.takeWhile p).2.shift δ) := by
  unfold takeWhile
  simp

end Cursor

def Token.shift (δ : Shift) (t : Token) : Token := { t with start := t.start.shift δ, stop := t.stop.shift δ }

def Diagnostic.shift (δ : Shift) (d : Diagnostic) : Diagnostic :=
  { d with start := d.start.map (Position.shift δ), stop := d.stop.map (Position.shift δ) }

def Lexeme.shift (δ : Shift) : Lexeme → Lexeme
  | .token t => .token (t.shift δ)
  | .refused d => .refused (d.shift δ)

namespace Token

def Stuck.shift (δ : Shift) (s : Stuck) : Stuck := ⟨s.fault, s.cursor.shift δ⟩

def Refusal.shift (δ : Shift) : Refusal → Refusal
  | .diagnostic d => .diagnostic (d.shift δ)
  | .fault stuck => .fault (stuck.shift δ)

def shiftScan (δ : Shift) : Except Refusal (List Lexeme) → Except Refusal (List Lexeme)
  | .ok xs => .ok (xs.map (Lexeme.shift δ))
  | .error r => .error (r.shift δ)

def Step.shift (δ : Shift) : Step → Step
  | .trivia cur => .trivia (cur.shift δ)
  | .lexeme x cur => .lexeme (x.shift δ) (cur.shift δ)
  | .refuse r => .refuse (r.shift δ)

/-- Tokens after which steps do the same. -/
inductive Sees : Option Token → Option Token → Prop
  | none : Sees none none
  | some {t t' : Token} : t'.kind = t.kind → t'.value = t.value → Sees (some t) (some t')
  | newline {t : Token} : t.kind = .newline → Sees none (some t)

theorem Sees.refl (last : Option Token) : Sees last last := by
  cases last with
  | none => exact .none
  | some t => exact .some rfl rfl

variable (δ : Shift) (cur : Cursor)

theorem shift_scanNumber : Step.ofScanned (scanNumber (cur.shift δ)) = (Step.ofScanned (scanNumber cur)).shift δ := by
  unfold scanNumber
  simp only [rest_shift, passed_shift, pos_shift]
  cases (numeral cur.rest).2.1 with
  | nil =>
    cases integerValue (numeral cur.rest).1 <;> rfl
  | cons point places =>
    dsimp only
    cases decimalValue (numeral cur.rest).1 places <;> rfl

theorem shift_scanString : Step.ofToken (scanString (cur.shift δ)) = (Step.ofToken (scanString cur)).shift δ := by
  unfold scanString
  simp only [next_shift, rest_shift, passed_shift, pos_shift]
  rfl

def shiftPattern (p : Except Diagnostic Token × Cursor) : Except Diagnostic Token × Cursor :=
  (match p.1 with
    | .ok t => .ok (t.shift δ)
    | .error d => .error (d.shift δ), p.2.shift δ)

theorem shift_scanRegex : scanRegex (cur.shift δ) = shiftPattern δ (scanRegex cur) := by
  unfold scanRegex
  simp only [next_shift, current?_shift, rest_shift, passed_shift, pos_shift]
  split
  · split
    · split <;> rfl
    · rfl
  · rfl

theorem shift_extendPhrase (n : Nat) (phrase : String) :
    extendPhrase n phrase (cur.shift δ) = match extendPhrase n phrase cur with
      | .ok (some (longer, after)) => .ok (some (longer, after.shift δ))
      | .ok none => .ok none
      | .error stuck => .error (stuck.shift δ) := by
  induction n generalizing phrase cur with
  | zero => rfl
  | succ n ih =>
    rw [extendPhrase, extendPhrase]
    simp only [takeWhile_shift, current?_shift]
    split
    · rfl
    · split
      · split
        · rfl
        · exact ih _ _
      · rfl

theorem shift_scanWord : Step.ofWord (scanWord (cur.shift δ)) = (Step.ofWord (scanWord cur)).shift δ := by
  unfold scanWord
  simp only [takeWhile_shift, current?_shift, pos_shift, shift_scanRegex, shift_extendPhrase]
  split
  · cases scanRegex cur with
    | mk result after => cases result <;> rfl
  · split
    · cases extendPhrase 2 (String.ofList (cur.takeWhile isWordChar).1) (cur.takeWhile isWordChar).2 with
      | error stuck => rfl
      | ok found => cases found <;> rfl
    · rfl

theorem shift_scanPair (short long : Kind) (second : Char) :
    Step.ofToken (scanPair short long second (cur.shift δ)) =
    (Step.ofToken (scanPair short long second cur)).shift δ := by
  unfold scanPair
  simp only [next_shift, current?_shift, pos_shift]
  split
  · rfl
  · simp [Step.ofToken, Step.shift, Lexeme.shift, Token.shift, mark]

theorem shift_scanNotEquals :
    Step.ofPossible (scanNotEquals (cur.shift δ)) = (Step.ofPossible (scanNotEquals cur)).shift δ := by
  unfold scanNotEquals
  simp only [next_shift, current?_shift, pos_shift]
  split <;> rfl

theorem shift_scanEquals : Step.ofToken (scanEquals (cur.shift δ)) = (Step.ofToken (scanEquals cur)).shift δ := by
  unfold scanEquals
  simp only [next_shift, current?_shift, pos_shift]
  split <;> rfl

theorem shift_skipComment : skipComment (cur.shift δ) = (skipComment cur).shift δ := by
  unfold skipComment
  simp only [next_shift, current?_shift, rest_shift, passed_shift, takeWhile_shift]
  split <;> rfl

variable {last last' : Option Token}

theorem Sees.compared (hl : Sees last last') :
    (last'.any fun t => comparedKinds.contains t.kind) = last.any fun t => comparedKinds.contains t.kind := by
  cases hl with
  | none => rfl
  | some hk _ => simp only [Option.any_some, hk]
  | newline hk => simp only [Option.any_some, hk]; rfl

theorem shift_scanLess (hl : Sees last last') :
    Step.ofScanned (scanLess last' (cur.shift δ)) = (Step.ofScanned (scanLess last cur)).shift δ := by
  unfold scanLess
  simp only [next_shift, current?_shift, rest_shift, hl.compared]
  split
  · rfl
  split
  · rfl
  split
  · rfl
  split
  · rfl
  split <;> rfl

theorem endsElement_congr {t t' : Token} (hk : t'.kind = t.kind) (hv : t'.value = t.value) :
    endsElement t' = endsElement t := by
  simp only [endsElement, isKeyword, hk, hv]

theorem not_endsElement_of_newline {t : Token} (hk : t.kind = .newline) : endsElement t = false := by
  simp [endsElement, isKeyword, closedKinds, hk]

theorem shift_scanGreater (hl : Sees last last') :
    Step.ofScanned (scanGreater last' (cur.shift δ)) = (Step.ofScanned (scanGreater last cur)).shift δ := by
  unfold scanGreater
  simp only [next_shift, current?_shift, rest_shift, nextWord_shift]
  split
  · rfl
  cases hl with
  | none => rfl
  | @newline t hk =>
    simp only [not_endsElement_of_newline hk]
    rfl
  | @some t t' hk hv =>
    dsimp only
    rw [endsElement_congr hk hv, hk]
    split
    · rfl
    split
    · rfl
    split
    · rfl
    split
    · rfl
    split
    · split
      · rfl
      split
      · rfl
      -- the unifier must not open the table of letters
      generalize Text.isAlphabetic _ = letter
      split <;> rfl
    · rfl

theorem step_shift (hl : Sees last last') (c : Char) : step last' (cur.shift δ) c = (step last cur c).shift δ := by
  refine step_elim (R := fun s s' => s' = s.shift δ)
    ?blank ?comment ?number ?word ?string ?pair ?notEquals ?equals ?less ?greater ?mark
  case blank =>
    intro _
    rw [next_shift]
    rfl
  case comment =>
    intro _
    rw [shift_skipComment]
    rfl
  case number => exact fun _ => shift_scanNumber δ cur
  case word => exact fun _ => shift_scanWord δ cur
  case string => exact fun _ => shift_scanString δ cur
  case pair => exact fun short long second _ => shift_scanPair δ cur short long second
  case notEquals => exact fun _ => shift_scanNotEquals δ cur
  case equals => exact fun _ => shift_scanEquals δ cur
  case less => exact fun _ => shift_scanLess δ cur hl
  case greater => exact fun _ => shift_scanGreater δ cur hl
  case mark =>
    unfold Step.ofMark
    rw [next_shift]
    cases markKind? c with
    | none => rfl
    | some kind => simp [Step.ofToken, Step.shift, Lexeme.shift, Token.shift, mark]

theorem sees_shift (x : Lexeme) : Sees (ofLexeme? x) (ofLexeme? (x.shift δ)) := by
  cases x with
  | token t => exact .some rfl rfl
  | refused d => exact .none

theorem scanRest_shift (hl : Sees last last') : scanRest last' (cur.shift δ) = shiftScan δ (scanRest last cur) := by
  induction hn : cur.rest.length using Nat.strongRecOn generalizing last last' cur with
  | ind n ih =>
    subst hn
    cases hr : cur.rest with
    | nil =>
      rw [scanRest_nil hr, scanRest_nil (by exact hr)]
      simp [shiftScan, Lexeme.shift, Token.shift, mark]
    | cons c cs =>
      have hlt (after : Cursor) (h : (step last cur c).after? = some after) := (passes_of_step hr h).lt
      rw [scanRest_cons hr, @scanRest_cons last' (cur.shift δ) c cs hr, step_shift δ cur hl]
      cases hs : step last cur c with
      | trivia after => exact ih _ (hlt after (by rw [hs]; rfl)) after hl rfl
      | refuse r => rfl
      | lexeme x after =>
        rw [Step.shift, Step.followedBy, Step.followedBy,
          ih _ (hlt after (by rw [hs]; rfl)) after (sees_shift δ x) rfl]
        cases scanRest (ofLexeme? x) after <;> rfl

end Token

end Utterance

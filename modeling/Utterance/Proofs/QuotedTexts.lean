import Mathlib.Algebra.Ring.Nat
import Utterance.Scalar.Basic

/-!
# Texts can be read back

The quoted form of a text tells the text (`Text.quoted_injective`): what a character was escaped to can be taken off
the front of what follows (`Text.unescape_escapeChar`). The decimal text of an integer tells the integer
(`Scalar.integerText_injective`).
-/

namespace Utterance

open List

namespace Text

def digitValue (c : Char) : Nat := if c.isDigit then c.toNat - '0'.toNat else c.toNat - 'a'.toNat + 10

theorem digitValue_digitChar : ∀ d < 16, digitValue d.digitChar = d := by decide

def hexValue (cs : List Char) : Nat := cs.foldl (fun n c => 16 * n + digitValue c) 0

theorem hexValue_toDigits (n : Nat) : hexValue (Nat.toDigits 16 n) = n := by
  induction n using Nat.strongRecOn with
  | ind n ih =>
    rw [Nat.toDigits_eq_if (by decide)]
    split
    · next hn => simp [hexValue, digitValue_digitChar n hn]
    · next hn =>
      have hdiv := ih (n / 16) (by omega)
      unfold hexValue at hdiv ⊢
      rw [foldl_append, hdiv, foldl_cons, foldl_nil, digitValue_digitChar _ (by omega)]
      omega

theorem hexValue_hex (width n : Nat) : hexValue (hex width n) = n := by
  have hzeros (k : Nat) (cs : List Char) : hexValue (List.replicate k '0' ++ cs) = hexValue cs := by
    induction k with
    | zero => rfl
    | succ k ih => exact ih
  rw [hex, hzeros, hexValue_toDigits]

theorem length_hex {width n : Nat} (hw : 0 < width) (hn : n < 16 ^ width) : (hex width n).length = width := by
  have := (Nat.length_toDigits_le_iff (by decide) hw).2 hn
  simp only [hex, length_append, length_replicate]
  omega

/-- The character that is meant after a backslash, and what follows. -/
def unescapeLetter : List Char → Option (Char × List Char)
  | 'n' :: cs => some ('\n', cs)
  | 'r' :: cs => some ('\r', cs)
  | 't' :: cs => some ('\t', cs)
  | 'x' :: cs => some (.ofNat (hexValue (cs.take 2)), cs.drop 2)
  | 'u' :: cs => some (.ofNat (hexValue (cs.take 4)), cs.drop 4)
  | 'U' :: cs => some (.ofNat (hexValue (cs.take 8)), cs.drop 8)
  | c :: cs => some (c, cs)
  | [] => none

/-- The character that was escaped at the start of a text, and what follows. -/
def unescape : List Char → Option (Char × List Char)
  | c :: cs => if c = '\\' then unescapeLetter cs else some (c, cs)
  | [] => none

theorem quoteFor_cases (s : List Char) : quoteFor s = '\'' ∨ quoteFor s = '"' := by
  unfold quoteFor
  split
  · exact .inr rfl
  · exact .inl rfl

theorem some_hex (width : Nat) {c : Char} (hw : 0 < width) (hc : c.toNat < 16 ^ width) (rest : List Char) :
    some (Char.ofNat (hexValue ((hex width c.toNat ++ rest).take width)), (hex width c.toNat ++ rest).drop width) =
      some (c, rest) := by
  have hl := length_hex hw hc
  rw [take_left' hl, drop_left' hl, hexValue_hex, Char.ofNat_toNat]

theorem unescape_escapeChar {quote : Char} (hq : quote = '\'' ∨ quote = '"') (c : Char) (rest : List Char) :
    unescape (escapeChar quote c ++ rest) = some (c, rest) := by
  unfold escapeChar
  split
  · next hc =>
    rcases hc with rfl | rfl
    · rcases hq with rfl | rfl <;> rfl
    · rfl
  next hc =>
  rw [not_or] at hc
  split
  · next h => rw [h]; rfl
  split
  · next h => rw [h]; rfl
  split
  · next h => rw [h]; rfl
  split
  · exact if_neg hc.2
  split
  · next h => exact some_hex 2 (by decide) h rest
  split
  · next h => exact some_hex 4 (by decide) h rest
  · exact some_hex 8 (by decide) c.val.toNat_lt rest

theorem escaped_injective {quote : Char} (hq : quote = '\'' ∨ quote = '"') :
    Function.Injective (List.flatMap (escapeChar quote)) := by
  intro cs ds h
  induction cs generalizing ds with
  | nil =>
    cases ds with
    | nil => rfl
    | cons d ds =>
      have := unescape_escapeChar hq d (ds.flatMap (escapeChar quote))
      rw [← flatMap_cons, ← h] at this
      cases this
  | cons c cs ih =>
    have hc := unescape_escapeChar hq c (cs.flatMap (escapeChar quote))
    rw [← flatMap_cons, h] at hc
    cases ds with
    | nil => cases hc
    | cons d ds =>
      have hd := unescape_escapeChar hq d (ds.flatMap (escapeChar quote))
      rw [← flatMap_cons, hc] at hd
      obtain ⟨rfl, hrest⟩ := Prod.mk.inj (Option.some.inj hd)
      rw [ih hrest]

/-- The quoted form of a text tells the text. -/
theorem quoted_injective : Function.Injective quoted := by
  intro s t h
  have hchars := String.ofList_injective h
  simp only [cons_append, List.cons.injEq] at hchars
  obtain ⟨hquote, hchars⟩ := hchars
  rw [hquote] at hchars
  have := escaped_injective (quoteFor_cases _) (append_cancel_right hchars)
  exact String.toList_injective this

theorem quoted_ne_none (s : String) : quoted s ≠ "None" := by
  intro h
  have hnone : "None" = String.ofList ['N', 'o', 'n', 'e'] := by decide
  have hhead := congrArg List.head? (String.ofList_injective (h.trans hnone))
  rcases quoteFor_cases s.toList with hq | hq <;> simp [hq] at hhead

end Text

namespace Scalar

/-- The decimal text of an integer tells the integer. -/
theorem integerText_injective {n m : Int} {t : String} (hn : integerText n = .ok t) (hm : integerText m = .ok t) :
    n = m := by
  unfold integerText at hn hm
  dsimp only at hn hm
  split at hn
  · cases hn
  split at hm
  · cases hm
  have hchars := String.ofList_injective (Except.ok.inj (hn.trans hm.symm))
  have hdigits (h : Nat.toDigits 10 n.natAbs = Nat.toDigits 10 m.natAbs) : n.natAbs = m.natAbs := by
    rw [← Nat.ofDigitChars_toDigits (n := n.natAbs) (b := 10) (by decide) (by decide), h,
      Nat.ofDigitChars_toDigits (by decide) (by decide)]
  have hminus (k : Nat) (ds : List Char) : Nat.toDigits 10 k ≠ '-' :: ds := by
    intro h
    have hdigit := Nat.isDigit_of_mem_toDigits (b := 10) (n := k) (by decide) (by decide) (h ▸ mem_cons_self)
    cases hdigit
  split at hchars <;> split at hchars
  · have := hdigits (tail_eq_of_cons_eq hchars)
    omega
  · exact absurd hchars.symm (hminus _ _)
  · exact absurd hchars (hminus _ _)
  · have := hdigits hchars
    omega

end Scalar

end Utterance

import Utterance.Proofs.Ways

/-!
# Scanning two texts in a row

Where a line end follows a text, scanning finds the lexemes of the text, then the line end, then what scanning the
rest by itself finds, at the place where it stands (`scan_append_line`). This needs that the line end is a token by
itself: a text that ends inside a comment, a text or a pattern would draw it in. Then there is a way to the line end
(`way_to_line`), which can be taken whatever follows the line end, and without it.
-/

namespace Utterance

variable {l : Option Token} {q : Position} {xs ys : List Lexeme} {z : List Char}

namespace Token

open List

/-- The last lexeme but one is a token that starts at an index. -/
def EndsAt (n : Int) (xs : List Lexeme) : Prop :=
  ∃ init t e, xs = init ++ [.token t, .token e] ∧ t.start.idx = n

section

variable {last : Option Token} {p : Position} {s : List Char}

section

variable (h : scanRest last ⟨p, s ++ ['\n']⟩ = .ok xs) (hn : EndsAt (p.idx + s.length) xs)
include h hn

theorem way_to_line : ∃ init l, ScansTo last ⟨p, s ++ ['\n']⟩ init l ⟨p.afterAll s, ['\n']⟩ ∧
      xs = init ++ [.token (mark .newline (p.afterAll s)), .token (mark .eof ((p.afterAll s).after '\n'))] := by
  obtain ⟨init, t, e, rfl, ht⟩ := hn
  obtain ⟨xs, f, hxs, -, hall⟩ := scanRest_ends h
  obtain ⟨rfl, -⟩ := append_inj' (show init ++ [.token t] ++ [.token e] = xs ++ [.token f] by simpa using hxs) rfl
  obtain ⟨l, ⟨q, rest⟩, c, cs, after, hway, rfl, hs, hafter⟩ :=
    ScansTo.of_scanRest h (by rintro t ⟨⟩; exact hall t (by simp))
  -- the index of the token tells how much is left
  have hidx : q.idx + (c :: cs).length = p.idx + (s ++ ['\n']).length := hway.leads.idx (cons_ne_nil _ _)
  have hstart : t.start = q := (token_of_step rfl hs).1
  obtain ⟨text, hover⟩ := hway.covers.resolve_left (cons_ne_nil _ _)
  obtain ⟨rfl, hline⟩ := append_inj' (show s ++ ['\n'] = text ++ c :: cs from hover.rest) (by
    rw [← hstart, ht, length_append] at hidx
    omega)
  obtain ⟨rfl, rfl⟩ := List.cons.inj hline
  obtain rfl := hover.pos
  cases hs
  cases hafter
  exact ⟨init, l, hway, rfl⟩

theorem scanRest_line (z : List Char) :
    ∃ init, xs = init ++ [.token (mark .newline (p.afterAll s)), .token (mark .eof ((p.afterAll s).after '\n'))] ∧
      scanRest last ⟨p, s ++ '\n' :: z⟩ =
        (scanRest (some (mark .newline (p.afterAll s))) ⟨(p.afterAll s).after '\n', z⟩).map
          (init ++ .token (mark .newline (p.afterAll s)) :: ·) := by
  obtain ⟨init, l, hway, hxs⟩ := way_to_line h hn
  obtain ⟨_, _, _, hway', -, -, hsame⟩ := ScansTo.widen (r := []) (.lines [] z) nofun
    p (.refl last) hway fun _ ⟨b, hb, hs⟩ => by
    cases hb
    cases hs
  obtain ⟨rfl, rfl, rfl⟩ := hsame rfl rfl
  refine ⟨init, hxs, hway'.scanRest.trans ?_⟩
  rw [@scanRest_cons l ⟨p.afterAll s, [] ++ '\n' :: z⟩ '\n' z rfl]
  show ((scanRest (some (mark .newline (p.afterAll s))) ⟨(p.afterAll s).after '\n', z⟩).map _).map _ = _
  cases scanRest (some (mark .newline (p.afterAll s))) ⟨(p.afterAll s).after '\n', z⟩ <;> rfl

end

/-- A step on the way to a line end, and what it is without the line end. -/
theorem step_before_line {m : Option Token} {cs : List Char} {c : Char} {after : Cursor}
    (hr : s ++ '\n' :: z = c :: cs) (hs : (step last ⟨p, s ++ '\n' :: z⟩ c).after? = some after)
    (htail : ScansTo m after xs l ⟨q, '\n' :: z⟩) : ∃ cs', s = c :: cs' ∧
      (∀ a, (step last ⟨p, s ++ '\n' :: z⟩ c).after? = some a → ¬a.rest.length < ('\n' :: z).length) ∧
      Step.Similar p p [] ('\n' :: z) (step last ⟨p, s⟩ c) (step last ⟨p, s ++ '\n' :: z⟩ c) := by
  have hle := htail.leads.le
  have hlt := (passes_of_step hr hs).lt
  cases s with
  | nil =>
    simp only [nil_append] at hle hlt
    omega
  | cons d s =>
    obtain ⟨rfl, -⟩ := List.cons.inj hr
    refine ⟨s, rfl, fun a ha => ?_, ?_⟩
    · rw [hs] at ha
      cases ha
      exact Nat.not_lt.2 hle
    · have hsimilar := @step_similar s ('\n' :: z) d last last [] p p (.ends z) (.refl last)
        fun _ _ ⟨b, hb, _⟩ => by cases hb
      rwa [append_nil] at hsimilar

/-- The way to a line end in a text that can be scanned without it. -/
theorem way_to_end (h : scanRest last ⟨p, s⟩ = .ok xs)
    (hway : ScansTo last ⟨p, s ++ '\n' :: z⟩ ys l ⟨q, '\n' :: z⟩) : ScansTo last ⟨p, s⟩ ys l ⟨q, []⟩ := by
  generalize hcur : Cursor.mk p (s ++ '\n' :: z) = cur, hend : Cursor.mk q ('\n' :: z) = target at hway
  induction hway generalizing p s xs with
  | here last cur =>
    obtain ⟨rfl, hrest⟩ := Cursor.mk.inj (hcur.trans hend.symm)
    obtain rfl : s = [] := append_cancel_right (hrest.trans (nil_append _).symm)
    exact .here _ _
  | @trivia last l cur after target c cs ys hr hs htail ih =>
    subst hcur hend
    obtain ⟨cs', rfl, hnot, hsimilar⟩ := step_before_line hr (by rw [hs]; rfl) htail
    rcases scanRest_ok rfl h with ⟨a, ha, -, hx⟩ | ⟨x, a, xs, ha, -, hx, rfl⟩
    · rw [ha] at hsimilar
      obtain ⟨stop, r, rfl, hs'⟩ := hsimilar.of_trivia (Nat.not_lt_zero _) fun _ _ => hnot
      cases hs.symm.trans hs'
      rw [append_nil] at ha hx
      exact .trivia rfl ha (ih hx rfl rfl)
    · rw [ha] at hsimilar
      obtain ⟨y, stop, r, -, -, -, hs'⟩ := hsimilar.of_lexeme (Nat.not_lt_zero _) fun _ _ => hnot
      cases hs.symm.trans hs'
  | @lexeme last l cur after target c cs x ys hr hs htail ih =>
    subst hcur hend
    obtain ⟨cs', rfl, hnot, hsimilar⟩ := step_before_line hr (by rw [hs]; rfl) htail
    rcases scanRest_ok rfl h with ⟨a, ha, -, hx⟩ | ⟨x, a, xs, ha, -, hx, rfl⟩
    · rw [ha] at hsimilar
      obtain ⟨stop, r, -, hs'⟩ := hsimilar.of_trivia (Nat.not_lt_zero _) fun _ _ => hnot
      cases hs.symm.trans hs'
    · rw [ha] at hsimilar
      obtain ⟨y, stop, r, rfl, -, rfl, hs'⟩ := hsimilar.of_lexeme (Nat.not_lt_zero _) fun _ _ => hnot
      cases hs.symm.trans hs'
      rw [append_nil] at ha hx
      exact .lexeme rfl ha (ih hx rfl rfl)

theorem scanRest_unlined (h : scanRest last ⟨p, s⟩ = .ok xs) (hl : scanRest last ⟨p, s ++ ['\n']⟩ = .ok ys)
    (hn : EndsAt (p.idx + s.length) ys) : ∃ init, xs = init ++ [.token (mark .eof (p.afterAll s))] ∧
      ys = init ++ [.token (mark .newline (p.afterAll s)), .token (mark .eof ((p.afterAll s).after '\n'))] := by
  obtain ⟨init, l, hway, hys⟩ := way_to_line hl hn
  have hscan := (way_to_end h hway).scanRest
  rw [h, scanRest_nil rfl] at hscan
  exact ⟨init, Except.ok.inj hscan, hys⟩

end

/-- The shift of what stands after a text and a line end, into the source where it does. -/
def shiftAfter (a : String) (source : Source) : Shift := ⟨a.length + 1, a.toList.count '\n' + 1, source⟩

def shiftInto (source : Source) : Shift := ⟨0, 0, source⟩

/-- A text with a line end and more after it, where the line end is a token by itself: what is scanned of the text
with the line end, then what is found in the rest, after as many characters and lines as come before it. -/
theorem scan_line {name a : String} (h : scan ⟨name, a ++ "\n"⟩ = .ok xs) (hn : EndsAt a.length xs) (b : String) :
    ∃ init p, xs = init ++ [.token (mark .newline p), .token (mark .eof (p.after '\n'))] ∧ scan ⟨name, a ++ "\n" ++ b⟩ =
        (shiftScan (shiftAfter a ⟨name, a ++ "\n" ++ b⟩) (scan ⟨name, b⟩)).map
          ((init ++ [Lexeme.token (mark .newline p)]).map (Lexeme.shift (shiftInto ⟨name, a ++ "\n" ++ b⟩)) ++ ·) := by
  let whole : Source := ⟨name, a ++ "\n" ++ b⟩
  let first := Position.start ⟨name, a ++ "\n"⟩
  have hcursor : Cursor.start ⟨name, a ++ "\n"⟩ = ⟨first, a.toList ++ ['\n']⟩ := by
    simp [Cursor.start, first]
  have hwhole : Cursor.start whole = (Cursor.mk first (a.toList ++ '\n' :: b.toList)).shift (shiftInto whole) := by
    simp [Cursor.start, first, whole, Cursor.shift, Position.shift, Position.start, shiftInto]
  have hafter : (Cursor.mk ((first.afterAll a.toList).after '\n') b.toList).shift (shiftInto whole) =
      (Cursor.start ⟨name, b⟩).shift (shiftAfter a whole) := by
    obtain ⟨hidx, hln, -⟩ := Position.afterAll_start ⟨name, a ++ "\n"⟩ a.toList
    rw [String.length_toList] at hidx
    simp only [Position.start] at hidx hln
    simp [Cursor.start, Cursor.shift, Position.shift, Position.start, Position.after, shiftInto, shiftAfter,
      first, hidx, hln]
  rw [scan_eq, hcursor] at h
  obtain ⟨init, hinit, hscan⟩ := scanRest_line h (by simpa [first, Position.start, String.length_toList]
    using hn) b.toList
  have hrest := scanRest_shift (shiftInto whole) ⟨(first.afterAll a.toList).after '\n', b.toList⟩
    (.some rfl rfl : Sees (some (mark .newline (first.afterAll a.toList))) _)
  rw [hafter, scanRest_shift (shiftAfter a whole) _ (.newline rfl), ← scan_eq] at hrest
  refine ⟨init, first.afterAll a.toList, hinit, ?_⟩
  rw [scan_eq, hwhole, scanRest_shift (shiftInto whole) _ .none, hscan, hrest]
  cases scanRest (some (mark .newline (first.afterAll a.toList))) ⟨(first.afterAll a.toList).after '\n', b.toList⟩ with
  | error r => rfl
  | ok ys => simp [shiftScan, Except.map, whole]

/-- Two texts with a line end between them, where that is a token by itself: the lexemes of the first one and the line
end, then what is found in the second one, after as many characters and lines as come before it. -/
theorem scan_append_line {name a : String} {init : List Lexeme} {t e : Token}
    (h : scan ⟨name, a ++ "\n"⟩ = .ok (init ++ [.token t, .token e])) (ht : t.start.idx = (a.length : Int))
    (b : String) :
    scan ⟨name, a ++ "\n" ++ b⟩ =
      (shiftScan (shiftAfter a ⟨name, a ++ "\n" ++ b⟩) (scan ⟨name, b⟩)).map
        ((init ++ [Lexeme.token t]).map (Lexeme.shift (shiftInto ⟨name, a ++ "\n" ++ b⟩)) ++ ·) := by
  obtain ⟨init', p, hinit, hscan⟩ := scan_line h ⟨init, t, e, rfl, ht⟩ b
  obtain ⟨rfl, hends⟩ := append_inj' hinit rfl
  obtain rfl : t = mark .newline p := by
    injection hends with h
    exact Lexeme.token.inj h
  exact hscan

/-- A name on the first line, an unclosed string on the second. -/
theorem scan_name_then_string :
    let source : Source := ⟨"w", "x $c\n\"y"⟩
    scan source =
      .ok [.token ⟨.identifier, .text "x", ⟨0, 0, 0, source⟩, ⟨1, 0, 1, source⟩⟩,
        .token (mark .newline ⟨4, 0, 4, source⟩),
        .token ⟨.string, .text "y", ⟨5, 1, 0, source⟩, ⟨8, 1, 3, source⟩⟩, .token (mark .eof ⟨8, 1, 3, source⟩)] :=
  let line : Source := ⟨"w", "x $c\n"⟩
  (@scan_append_line "w" "x $c" [.token ⟨.identifier, .text "x", ⟨0, 0, 0, line⟩, ⟨1, 0, 1, line⟩⟩]
    (mark .newline ⟨4, 0, 4, line⟩) (mark .eof ⟨5, 1, 0, line⟩) rfl rfl "\"y").trans rfl

/-- The lexemes of two texts, and those of both with a line end between them, where that is a token by itself. -/
theorem scan_seam {name a b : String} {zs : List Lexeme} (ha : scan ⟨name, a⟩ = .ok xs)
    (hl : scan ⟨name, a ++ "\n"⟩ = .ok ys) (hn : EndsAt a.length ys) (hb : scan ⟨name, b⟩ = .ok zs) :
    ∃ init e init' t zs', xs = init ++ [.token e] ∧ t.kind = .newline ∧ Forall₂ Lexeme.Alike init init' ∧
      Forall₂ Lexeme.Alike zs zs' ∧ scan ⟨name, a ++ "\n" ++ b⟩ = .ok (init' ++ .token t :: zs') := by
  obtain ⟨init, p, hinit, hscan⟩ := scan_line hl hn b
  let line : Source := ⟨name, a ++ "\n"⟩
  have hcursor : Cursor.start line = ⟨Position.start line, a.toList ++ ['\n']⟩ := by simp [Cursor.start, line]
  have hshift : (Cursor.start ⟨name, a⟩).shift (shiftInto line) = ⟨Position.start line, a.toList⟩ := by
    simp [Cursor.start, Cursor.shift, Position.shift, Position.start, shiftInto]
  have halone : scanRest none ⟨Position.start line, a.toList⟩ = .ok (xs.map (Lexeme.shift (shiftInto line))) := by
    rw [← hshift, scanRest_shift (shiftInto line) _ .none, ← scan_eq, ha]
    rfl
  rw [scan_eq, hcursor] at hl
  obtain ⟨init', hxs, hys⟩ := scanRest_unlined halone hl
    (by simpa [line, Position.start, String.length_toList] using hn)
  obtain ⟨rfl, -⟩ := append_inj' (hinit.symm.trans hys) rfl
  obtain ⟨before, after, rfl, rfl, hafter⟩ := map_eq_append_iff.1 hxs
  obtain ⟨x, rfl, hx⟩ := map_eq_singleton_iff.1 hafter
  cases x with
  | refused d => cases hx
  | token e =>
    rw [hb] at hscan
    refine ⟨before, e, _, (mark .newline p).shift _, _, rfl, rfl, ?_, ?_,
      hscan.trans (by simp [Except.map, shiftScan]; rfl)⟩
    · rw [List.forall₂_map_right_iff]
      refine List.forall₂_same.2 fun x _ => ?_
      cases x with
      | token t => exact .token ⟨rfl, rfl, trivial, trivial⟩
      | refused d => exact .refused _ _
    · rw [List.forall₂_map_right_iff]
      exact List.forall₂_same.2 fun x _ => Lexeme.alike_shift _ x

end Token

end Utterance

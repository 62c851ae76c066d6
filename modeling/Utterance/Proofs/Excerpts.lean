import Utterance.Proofs.Spelling

/-!
# What excerpts show

An excerpt from one position to another shows the lines from that of the first to that of the second, each with arrows
under the columns in between (`layout`), with two exceptions where it begins on the first line of a text
(`excerpt_shows`): if it goes on to another line, there is one arrow less under the first one, and if the first line
is empty, the lines below are shown instead.
-/

namespace Utterance

open List

namespace Position

variable {text : List Char} {p q : Position}

theorem lineStart_append {s t : List Char} (ht : '\n' ∉ t) : lineStart (s ++ t) = lineStart s := by
  induction t using List.reverseRecOn with
  | nil => rw [append_nil]
  | append_singleton t c ih =>
    simp only [mem_append, mem_singleton, not_or] at ht
    rw [← append_assoc, lineStart_concat, if_neg (Ne.symm ht.2), ih ht.1]

theorem take_of_le (hle : p.idx ≤ q.idx) : ∃ mid, text.take q.idx.toNat = text.take p.idx.toNat ++ mid := by
  have hprefix := take_prefix_take_left (l := text) (show p.idx.toNat ≤ q.idx.toNat by omega)
  obtain ⟨mid, hmid⟩ := hprefix
  exact ⟨mid, hmid.symm⟩

namespace Canonical

theorem ln_mono (hp : p.Canonical text) (hq : q.Canonical text) (hle : p.idx ≤ q.idx) : p.ln ≤ q.ln := by
  obtain ⟨mid, hmid⟩ := @take_of_le text p q hle
  rw [hp.ln, hq.ln, hmid, count_append]
  omega

theorem col_nonneg (hp : p.Canonical text) : 0 ≤ p.col := by
  have hcol := hp.col
  have hstart := lineStart_le (text.take p.idx.toNat)
  have hidx := hp.idx
  rw [length_take] at hstart
  omega

theorem sub_col (hp : p.Canonical text) (hq : q.Canonical text) (hln : p.ln = q.ln) :
    p.idx - p.col = q.idx - q.col := by
  have hsame {x y : Position} (hx : x.Canonical text) (hy : y.Canonical text) (hln : x.ln = y.ln)
    (hle : x.idx ≤ y.idx) :
      x.idx - x.col = y.idx - y.col := by
    obtain ⟨mid, hmid⟩ := @take_of_le text x y hle
    have hno : '\n' ∉ mid := by
      rw [hx.ln, hy.ln, hmid, count_append] at hln
      exact count_eq_zero.1 (by omega)
    rw [hx.col, hy.col, hmid, lineStart_append hno]
    omega
  rcases Int.le_total p.idx q.idx with hle | hle
  · exact hsame hp hq hln hle
  · exact (hsame hq hp hln.symm hle).symm

end Canonical

end Position

namespace Excerpt

/-- A line of a text: what stands up to the next line end, after some line ends were passed. -/
def lineOf : List Char → Nat → List Char
  | text, 0 => text.takeWhile (· != '\n')
  | text, k + 1 => lineOf (text.dropWhile (· != '\n')).tail k

def firstColumn (p : Position) (k : Nat) : Int := if k = p.ln then p.col else 0

def lastColumn (text : List Char) (q : Position) (k : Nat) : Int := if k = q.ln then q.col else (lineOf text k).length

/-- A line with arrows under it from one column to another. -/
def row (text : List Char) (k : Nat) (first last : Int) : List Char :=
  (if k = 0 then [] else ['\n']) ++ lineOf text k ++
    '\n' :: (List.replicate first.toNat ' ' ++ List.replicate (last - first).toNat '↑')

/-- The lines from that of one position to that of another, given the columns where the arrows end. -/
def layout (text : List Char) (p q : Position) (last : Nat → Int) : List Char :=
  (List.range' p.ln.toNat (q.ln - p.ln + 1).toNat).flatMap fun k => row text k (firstColumn p k) (last k)

theorem columns_iff {text : List Char} {p q x : Position} {k : Nat} (hp : p.Canonical text) (hq : q.Canonical text)
    (hx : x.Canonical text) (hk : x.ln = k) (hpk : p.ln ≤ k) (hkq : k ≤ q.ln) (hcol : x.col < (lineOf text k).length) :
    p.idx ≤ x.idx ∧ x.idx < q.idx ↔ firstColumn p k ≤ x.col ∧ x.col < lastColumn text q k := by
  have hafter : p.idx ≤ x.idx ↔ firstColumn p k ≤ x.col := by
    unfold firstColumn
    split
    · next h =>
      have := hp.sub_col hx (by omega)
      omega
    · next h =>
      have hle : p.idx ≤ x.idx := by
        by_contra hlt
        have := hx.ln_mono hp (by omega)
        omega
      exact iff_of_true hle hx.col_nonneg
  have hbefore : x.idx < q.idx ↔ x.col < lastColumn text q k := by
    unfold lastColumn
    split
    · next h =>
      have := hx.sub_col hq (by omega)
      omega
    · next h =>
      have hlt : x.idx < q.idx := by
        by_contra hle
        have := hq.ln_mono hx (by omega)
        omega
      exact iff_of_true hlt hcol
  rw [hafter, hbefore]

section

variable {text s : List Char} {start k n : Nat} {last first : Int}

theorem lineOf_append (s t : List Char) (k : Nat) : lineOf (s ++ '\n' :: t) (s.count '\n' + 1 + k) = lineOf t k := by
  induction s with
  | nil =>
    rw [show List.count '\n' [] + 1 + k = k + 1 by simp; omega]
    rfl
  | cons c s ih =>
    by_cases hc : c = '\n'
    · subst hc
      rw [count_cons_self, show s.count '\n' + 1 + 1 + k = (s.count '\n' + 1 + k) + 1 by omega]
      exact ih
    · rw [count_cons_of_ne hc, ← ih, show s.count '\n' + 1 + k = (s.count '\n' + k) + 1 by omega, lineOf, lineOf,
        cons_append, dropWhile_cons_of_pos (by simpa using hc)]

theorem findIdx?_break (s : List Char) :
    (s.findIdx? (· == '\n')).getD s.length = (s.takeWhile (· != '\n')).length := by
  induction s with
  | nil => rfl
  | cons c s ih =>
    rw [findIdx?_cons, takeWhile_cons]
    by_cases hc : c = '\n'
    · simp [hc]
    · have hne : (c == '\n') = false := by simpa using hc
      have hne' : (c != '\n') = true := by simpa using hc
      rw [hne, hne', if_neg (by decide), if_pos rfl, length_cons, length_cons, ← ih]
      cases s.findIdx? (· == '\n') <;> rfl

theorem lineEnd_eq {c : Char} (h : text.drop start = c :: s) :
    lineEnd text start = start + 1 + (s.takeWhile (· != '\n')).length := by
  have hs : text.drop (start + 1) = s := by
    rw [← drop_drop, h]
    rfl
  have hlength : text.length = start + 1 + s.length := by
    have := congrArg List.length h
    rw [length_drop, length_cons] at this
    omega
  rw [lineEnd, Text.indexFrom?, hs, hlength, ← findIdx?_break]
  cases s.findIdx? (· == '\n') with
  | none => rfl
  | some i => exact Nat.add_comm _ _

/-- One line is shown, from the character where it starts, which is no part of it after the first line. -/
theorem lines_succ {c : Char} (h : text.drop start = c :: s) :
    lines text last (n + 1) start first = c :: s.takeWhile (· != '\n') ++
      '\n' :: marks first (if n = 0 then last else (s.takeWhile (· != '\n')).length) ++
        lines text last n (start + 1 + (s.takeWhile (· != '\n')).length) 0 := by
  have hline : (text.take (start + 1 + (s.takeWhile (· != '\n')).length)).drop start =
      c :: s.takeWhile (· != '\n') := by
    rw [drop_take, h, show start + 1 + (s.takeWhile (· != '\n')).length - start =
      (s.takeWhile (· != '\n')).length + 1 by omega, take_succ_cons]
    exact congrArg (c :: ·) (prefix_iff_eq_take.1 (List.takeWhile_prefix _)).symm
  rw [lines, lineEnd_eq h, hline, length_cons]
  simp

theorem exists_break (h : s.count '\n' ≠ 0) :
    ∃ t, s.drop (s.takeWhile (· != '\n')).length = '\n' :: t ∧ s.count '\n' = t.count '\n' + 1 ∧
      ∀ k, lineOf s (k + 1) = lineOf t k := by
  have hmem : '\n' ∈ s := count_pos_iff.1 (Nat.pos_of_ne_zero h)
  obtain ⟨u, t, rfl, hu⟩ := eq_append_cons_of_mem hmem
  have hall : ∀ c ∈ u, (c != '\n') = true := fun c hc => by
    rw [bne_iff_ne]
    rintro rfl
    exact hu hc
  have htake : (u ++ '\n' :: t).takeWhile (· != '\n') = u := by
    rw [takeWhile_append_of_pos hall]
    simp
  refine ⟨t, by rw [htake, drop_left], ?_, fun k => ?_⟩
  · rw [count_append, count_cons_self, count_eq_zero.2 hu]
    omega
  · have := lineOf_append u t k
    rwa [count_eq_zero.2 hu, show 0 + 1 + k = k + 1 by omega] at this

/-- From the line end before a line on, the lines are shown one after the other. -/
theorem lines_eq {c₀ c₁ : Nat → Int} (hk : 0 < k) (hdrop : text.drop start = '\n' :: s)
    (hlines : ∀ j, lineOf text (k + j) = lineOf s j) (hn : n ≤ s.count '\n') (hzero : ∀ j, k < j → c₀ j = 0)
    (hfull : ∀ j, k ≤ j → j < k + n → c₁ j = (lineOf text j).length) (hlast : c₁ (k + n) = last) :
    lines text last (n + 1) start (c₀ k) = (List.range' k (n + 1)).flatMap fun j => row text j (c₀ j) (c₁ j) := by
  induction n generalizing start s k with
  | zero =>
    rw [lines_succ hdrop, if_pos rfl, ← hlast, range'_one, flatMap_singleton, row, if_neg (by omega),
      show lineOf text k = s.takeWhile (· != '\n') from hlines 0]
    simp [lines, marks]
  | succ n ih =>
    obtain ⟨t, hs, hcount, ht⟩ := exists_break (show s.count '\n' ≠ 0 by omega)
    have hdrop' : text.drop (start + 1 + (s.takeWhile (· != '\n')).length) = '\n' :: t := by
      rw [← drop_drop, ← drop_drop, hdrop]
      exact hs
    have hrest := ih (k := k + 1) (by omega) hdrop' (fun j => by rw [← ht, ← hlines]; congr 1; omega) (by omega)
      (fun j hj => hzero j (by omega)) (fun j hj hj' => hfull j (by omega) (by omega)) (by rw [← hlast]; congr 1; omega)
    rw [hzero (k + 1) (by omega)] at hrest
    have hline : lineOf text k = s.takeWhile (· != '\n') := hlines 0
    have hrow : row text k (c₀ k) (c₁ k) = '\n' :: s.takeWhile (· != '\n') ++
        '\n' :: marks (c₀ k) (s.takeWhile (· != '\n')).length := by
      rw [row, if_neg (by omega), hfull k (by omega) (by omega), hline]
      rfl
    rw [lines_succ hdrop, if_neg (by omega), hrest, range'_succ (s := k), flatMap_cons, hrow]

end

section

variable {text : List Char} {p q : Position}

/-- The line of a position begins after the last line end before it, or it is the first line. -/
theorem lineStart_cases (hp : p.Canonical text) :
    (p.ln = 0 ∧ lineStart text p.idx = 0) ∨
    ∃ s t, text = s ++ '\n' :: t ∧ p.ln = s.count '\n' + 1 ∧ lineStart text p.idx = s.length := by
  have hidx := hp.idx
  have hclamp : text.take (Text.clampIndex text.length p.idx) = text.take p.idx.toNat := by
    rw [Text.clampIndex, if_neg (by omega), take_eq_take_iff]
    omega
  rw [lineStart, Text.lastIndexBefore?, hclamp, hp.ln]
  by_cases hmem : '\n' ∈ text.take p.idx.toNat
  · -- the last line end is the first one from behind
    obtain ⟨u, v, huv, hu⟩ := eq_append_cons_of_mem (mem_reverse.2 hmem)
    have htake : text.take p.idx.toNat = v.reverse ++ '\n' :: u.reverse := by
      rw [← reverse_reverse (text.take p.idx.toNat), huv]
      simp
    have hfind : (u ++ '\n' :: v).findIdx? (· == '\n') = some u.length := by
      rw [findIdx?_append, findIdx?_eq_none_iff.2 (fun c hc => by
        rw [beq_eq_false_iff_ne]
        rintro rfl
        exact hu hc), findIdx?_cons]
      simp
    refine .inr ⟨v.reverse, u.reverse ++ text.drop p.idx.toNat, ?_, ?_, ?_⟩
    · rw [← cons_append, ← append_assoc, ← htake, take_append_drop]
    · have hno : List.count '\n' u.reverse = 0 := count_eq_zero.2 (by simpa using hu)
      rw [htake, count_append, count_cons_self, hno]
      omega
    · rw [huv, hfind, htake]
      simp
  · refine .inl ⟨by rw [count_eq_zero.2 hmem]; rfl, ?_⟩
    rw [findIdx?_eq_none_iff.2 fun c hc => by
      rw [beq_eq_false_iff_ne]
      rintro rfl
      exact hmem (mem_reverse.1 hc)]
    rfl

theorem ln_le_count (hq : q.Canonical text) : q.ln ≤ text.count '\n' := by
  have hsub := (take_sublist q.idx.toNat text).count_le '\n'
  rw [hq.ln]
  omega

theorem toNat_lines (h : p.ln ≤ q.ln) : (q.ln - p.ln + 1).toNat = (q.ln - p.ln).toNat + 1 := by omega

section

variable (hp : p.Canonical text) (hq : q.Canonical text) (hle : p.idx ≤ q.idx)
include hp hq hle

theorem lines_of_later (hln : 0 < p.ln) :
    lines text q.col (q.ln - p.ln + 1).toNat (lineStart text p.idx) p.col = layout text p q (lastColumn text q) := by
  rcases lineStart_cases hp with ⟨hzero, -⟩ | ⟨s, t, htext, hpln, hstart⟩
  · omega
  have hmono := hp.ln_mono hq hle
  have hcount := ln_le_count hq
  have hpl : p.ln.toNat = s.count '\n' + 1 := by omega
  have htotal : text.count '\n' = s.count '\n' + 1 + t.count '\n' := by
    rw [htext, count_append, count_cons_self]
    omega
  have hfirst : firstColumn p p.ln.toNat = p.col := if_pos (by omega)
  rw [layout, toNat_lines hmono, hstart]
  nth_rewrite 1 [← hfirst]
  refine lines_eq (s := t) (by omega) (by rw [htext, drop_left]) (fun j => ?_) (by omega)
    (fun j hj => if_neg (by omega))
    (fun j hj hj' => if_neg (by omega)) (if_pos (by omega))
  rw [hpl, htext, lineOf_append]

/-- On the first line, the arrows end one column too early if another line follows. -/
theorem lines_of_first (hln : p.ln = 0)
    (hhead : text.head? ≠ some '\n') : lines text q.col (q.ln - p.ln + 1).toNat (lineStart text p.idx) p.col =
      layout text p q fun k => if k = 0 ∧ q.ln ≠ 0 then (lineOf text 0).length - 1 else lastColumn text q k := by
  rcases lineStart_cases hp with ⟨-, hstart⟩ | ⟨s, t, -, hpln, -⟩
  swap
  · omega
  have hmono := hp.ln_mono hq hle
  have hcount := ln_le_count hq
  have hfirst : firstColumn p 0 = p.col := if_pos hln.symm
  have hzero (j : Nat) (hj : 0 < j) : firstColumn p j = 0 := if_neg (by omega)
  rw [layout, toNat_lines hmono, hstart, hln, Int.toNat_zero, range'_succ, flatMap_cons, hfirst]
  cases htext : text with
  | nil =>
    have hq0 : q.ln = 0 := by
      rw [htext, count_nil] at hcount
      omega
    rw [hq0, if_neg (by omega)]
    simp [lastColumn, hq0, lines, lineEnd, Text.indexFrom?, row, lineOf, marks]
  | cons c s =>
    have hc : c ≠ '\n' := by
      rintro rfl
      rw [htext] at hhead
      exact hhead rfl
    have hline : lineOf (c :: s) 0 = c :: s.takeWhile (· != '\n') := takeWhile_cons_of_pos (by simpa using hc)
    rw [lines_succ (s := s) drop_zero, row, if_pos rfl, hline]
    by_cases hq0 : q.ln = 0
    · simp [hq0, lastColumn, lines, marks]
    · rw [if_neg (by omega), if_pos ⟨rfl, hq0⟩]
      have hcs : (c :: s).count '\n' = s.count '\n' := count_cons_of_ne hc
      rw [htext, hcs] at hcount
      obtain ⟨t, hs, hts, ht⟩ := exists_break (show s.count '\n' ≠ 0 by omega)
      have hdrop : (c :: s).drop (0 + 1 + (s.takeWhile (· != '\n')).length) = '\n' :: t := by
        rw [show 0 + 1 + (s.takeWhile (· != '\n')).length = (s.takeWhile (· != '\n')).length + 1 by omega,
          drop_succ_cons]
        exact hs
      have hlines (j : Nat) : lineOf (c :: s) (1 + j) = lineOf t j := by
        rw [← ht, Nat.add_comm 1 j, lineOf, lineOf, dropWhile_cons_of_pos (by simpa using hc)]
      obtain ⟨n, hn⟩ : ∃ n, (q.ln - 0).toNat = n + 1 := ⟨(q.ln - 0).toNat - 1, by omega⟩
      have hrest : lines (c :: s) q.col (n + 1) (0 + 1 + (s.takeWhile (· != '\n')).length) (firstColumn p 1) =
          (List.range' 1 (n + 1)).flatMap fun k => row (c :: s) k (firstColumn p k)
            (if k = 0 ∧ q.ln ≠ 0 then (lineOf (c :: s) 0).length - 1 else lastColumn (c :: s) q k) := by
        refine lines_eq Nat.one_pos hdrop hlines (by omega) (fun j hj => hzero j (by omega)) (fun j hj hj' => ?_) ?_
        · rw [if_neg (by omega), lastColumn, if_neg (by omega)]
        · rw [if_neg (by omega), lastColumn, if_pos (by omega)]
      rw [hzero 1 Nat.one_pos] at hrest
      rw [hn, hrest, hline]
      simp [marks]

end

theorem filter_lines {n start : Nat} {first last : Int} (htab : '\t' ∉ text) :
    (lines text last n start first).filter (· != '\t') = lines text last n start first := by
  rw [filter_eq_self]
  induction n generalizing start first with
  | zero => exact fun c hc => by cases hc
  | succ n ih =>
    intro c hc
    rw [bne_iff_ne]
    rintro rfl
    simp only [lines, marks, mem_append, mem_cons, mem_replicate] at hc
    rcases hc with (hc | hc | hc | hc) | hc
    · exact htab (mem_of_mem_take (mem_of_mem_drop hc))
    · exact absurd hc (by decide)
    · exact absurd hc.2 (by decide)
    · exact absurd hc.2 (by decide)
    · exact absurd (ih _ hc) (by decide)

theorem lineStart_one (h : text.head? = some '\n') : lineStart text 1 = 0 := by
  obtain ⟨s, rfl⟩ := head?_eq_some_iff.1 h
  have htake : ('\n' :: s).take (Text.clampIndex ('\n' :: s).length 1) = ['\n'] := by
    simp [Text.clampIndex]
  rw [lineStart, Text.lastIndexBefore?, htake]
  rfl

end

/-- What an excerpt of a text without tabs shows from one position of the text to a later one.

If it begins below the first line, or if it is within a first line that is not empty, it shows each line from the one
position to the other, with arrows under the columns of that line that lie in between. If it begins on a first line
that is not empty and goes on, the arrows under that line end one column before its end. If it begins on an empty
first line, it is the excerpt from and to the next lines. -/
theorem excerpt_shows (text : String) (p q : Position) (htab : '\t' ∉ text.toList) (hp : p.Canonical text.toList)
    (hq : q.Canonical text.toList) (hle : p.idx ≤ q.idx) :
    (0 < p.ln ∨ q.ln = 0 ∧ text.toList.head? ≠ some '\n' →
      render text p q = String.ofList (layout text.toList p q (lastColumn text.toList q))) ∧
    (p.ln = 0 → 0 < q.ln → text.toList.head? ≠ some '\n' →
    render text p q = String.ofList (layout text.toList p q fun k =>
      if k = 0 then (lineOf text.toList 0).length - 1 else lastColumn text.toList q k)) ∧
    (p.ln = 0 → text.toList.head? = some '\n' →
      render text p q = render text { p with idx := 1, ln := 1 } { q with ln := q.ln + 1 }) ∧
    ∀ (x : Position) (k : Nat), x.Canonical text.toList → x.ln = k → p.ln ≤ k → k ≤ q.ln →
      x.col < (lineOf text.toList k).length →
        (p.idx ≤ x.idx ∧ x.idx < q.idx ↔ firstColumn p k ≤ x.col ∧ x.col < lastColumn text.toList q k) := by
  have hmono := hp.ln_mono hq hle
  have hzero : 0 ≤ p.ln := by
    rw [hp.ln]
    omega
  refine ⟨fun h => ?_, fun hp0 hq0 hhead => ?_, fun hp0 hhead => ?_, fun x k hx hk hpk hkq =>
    columns_iff hp hq hx hk hpk hkq⟩
  · rw [render, filter_lines htab]
    congr 1
    by_cases hp0 : 0 < p.ln
    · exact lines_of_later hp hq hle hp0
    · obtain ⟨hq0, hhead⟩ := h.resolve_left hp0
      rw [lines_of_first hp hq hle (by omega) hhead]
      simp only [hq0, ne_eq, not_true_eq_false, and_false, if_false]
  · rw [render, filter_lines htab, lines_of_first hp hq hle hp0 hhead]
    have hne : q.ln ≠ 0 := by omega
    simp only [hne, ne_eq, not_false_eq_true, and_true]
  · have hstart : lineStart text.toList p.idx = 0 := by
      rcases lineStart_cases hp with ⟨-, h⟩ | ⟨s, t, -, h, -⟩
      · exact h
      · omega
    have hcount : (q.ln + 1 - 1 + 1).toNat = (q.ln - p.ln + 1).toNat := by omega
    rw [render, render, hstart]
    rw [lineStart_one hhead, hcount]

namespace Sample

def here (idx ln col : Int) : Position := ⟨idx, ln, col, ⟨"main", ""⟩⟩

/-- From the middle of the second of three lines to the end of the third one. -/
theorem excerpt_shows_two_lines : render "a\nbcd\nef" (here 3 1 1) (here 8 2 2) = "\nbcd\n ↑↑\nef\n↑↑" := by
  have h := (excerpt_shows "a\nbcd\nef" (here 3 1 1) (here 8 2 2) (by decide) ⟨by decide, by decide, by decide⟩
    ⟨by decide, by decide, by decide⟩ (by decide)).1 (.inl (by decide))
  exact h.trans (by decide)

/-- From the start of a text to the middle of its second line: the second column of the first line lies in between,
and there is no arrow under it. -/
theorem excerpt_short_first_line :
    (here 0 0 0).Canonical "ab\ncd".toList ∧ (here 4 1 1).Canonical "ab\ncd".toList ∧
    String.ofList (layout "ab\ncd".toList (here 0 0 0) (here 4 1 1) (lastColumn "ab\ncd".toList (here 4 1 1))) =
      "ab\n↑↑\ncd\n↑" ∧
    render "ab\ncd" (here 0 0 0) (here 4 1 1) = "ab\n↑\ncd\n↑" :=
  ⟨⟨by decide, by decide, by decide⟩, ⟨by decide, by decide, by decide⟩, by decide, by decide⟩

end Sample

end Excerpt

end Utterance

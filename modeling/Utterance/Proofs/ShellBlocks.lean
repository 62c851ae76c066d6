import Utterance.Proofs.Reach
import Utterance.Shell.Interactive

/-!
# The lines of a block

The shell collects the lines of a block and runs them as one text. It does not parse them for that: a line that begins
with a word of a block opens one, and a line that ends with `end;` closes one. So it runs the text right after the
line that closes the first block if the lines before it are nested in this sense (`Nested`), and never if there is no
such line.

A block on a single line has no `end;`, though it begins with the word of a block. After it the shell waits for a line
that the program does not need (`Block.oneLine_cancelled`).
-/

namespace Utterance.Shell

open Eval List

/-- A line that can be typed, and is no interrupt. -/
def IsLine (l : String) : Prop := '\n' ∉ l.toList ∧ l.toList ≠ interruptLine

instance (l : String) : Decidable (IsLine l) := inferInstanceAs (Decidable (_ ∧ _))

/-- What there is to read when lines are typed. -/
def typed (ls : List String) : List Char := ls.flatMap fun l => l.toList ++ ['\n']

/-- Lines that close each block they open, and no other. -/
inductive Nested : List String → Prop
  | nil : Nested []
  | line {l ls} : ¬ startsBlock (trimmed l) → ¬ endsBlock (trimmed l) → Nested ls → Nested (l :: ls)
  | block {l stop body ls} : startsBlock (trimmed l) → ¬ endsBlock (trimmed l) → Nested body →
    endsBlock (trimmed stop) → Nested ls → Nested (l :: body ++ stop :: ls)

/-- The lines of a block after its first. -/
def Closing (ls : List String) : Prop := ∃ body stop, ls = body ++ [stop] ∧ Nested body ∧ endsBlock (trimmed stop)

/-- The lines of a block, each with the blanks that the shell puts before it. -/
def indented : Depth → List String → List String
  | _, [] => []
  | d, l :: ls => (d.blanks ++ l) :: indented (d.after (trimmed l)) ls

/-- A turn runs a text and shows how it ends, when so much of the input is left. -/
def Runs (w : World) (text : String) (rest : List Char) : Prop :=
  ∃ out, turn w = (do showEnding (← Session.run "<stdin>" text)) { w with input := rest, out := out }

/-- The input ends before the block does, and nothing is run. -/
def Cancelled (w : World) : Prop :=
  ∃ out, turn w = .ok () { w with input := [], out := out ++ "\nBlock input cancelled" ++ "\n" }

/-- So many open blocks are closed by the lines, the last of them by the last line. -/
def ClosesAll : Nat → List String → Prop
  | n, [] => n = 0
  | n, l :: ls => n ≠ 0 ∧ ClosesAll (Depth.after ⟨n, 0⟩ (trimmed l)).blocks ls

section

variable {w : World} {l first : String} {ls : List String} {rest : List Char} {n : Nat} {d : Depth}

theorem after_blocks (d : Depth) (l : List Char) : (d.after l).blocks = (Depth.after ⟨d.blocks, 0⟩ l).blocks := by
  unfold Depth.after
  split <;> rfl

theorem closesAll_of_starts (hs : startsBlock (trimmed l)) (he : ¬ endsBlock (trimmed l)) :
    ClosesAll (n + 1) (l :: ls) ↔ ClosesAll (n + 2) ls := by
  simp [ClosesAll, Depth.after, hs, he]

theorem closesAll_of_ends (he : endsBlock (trimmed l)) : ClosesAll (n + 1) (l :: ls) ↔ ClosesAll n ls := by
  simp [ClosesAll, Depth.after, he]

theorem closesAll_of_neither (hs : ¬ startsBlock (trimmed l)) (he : ¬ endsBlock (trimmed l)) :
    ClosesAll (n + 1) (l :: ls) ↔ ClosesAll (n + 1) ls := by
  simp [ClosesAll, Depth.after, hs, he]

theorem Nested.closesAll_append (h : Nested ls) {ls' : List String} :
    ClosesAll (n + 1) (ls ++ ls') ↔ ClosesAll (n + 1) ls' := by
  induction h generalizing n ls' with
  | nil => rfl
  | line hs he _ ih => exact (closesAll_of_neither hs he).trans ih
  | block hs he _ hstop _ ihbody ih =>
    rw [append_assoc, cons_append, closesAll_of_starts hs he, ihbody, cons_append,
      closesAll_of_ends hstop, ih]

/-- The first block is closed by a line before which the lines are nested. -/
theorem ClosesAll.nested {n : Nat} {ls : List String} (h : ClosesAll (n + 1) ls) :
    ∃ body stop ls', ls = body ++ stop :: ls' ∧ Nested body ∧ endsBlock (trimmed stop) ∧ ClosesAll n ls' := by
  match ls with
  | [] => nomatch h
  | l :: ls =>
    by_cases he : endsBlock (trimmed l)
    · exact ⟨[], l, ls, rfl, .nil, he, (closesAll_of_ends he).1 h⟩
    · by_cases hs : startsBlock (trimmed l)
      · obtain ⟨body, stop, ls', rfl, hbody, hstop, h⟩ := ((closesAll_of_starts hs he).1 h).nested
        obtain ⟨body', stop', ls'', rfl, hbody', hstop', h⟩ := h.nested
        exact ⟨l :: body ++ stop :: body', stop', ls'', by simp, .block hs he hbody hstop hbody', hstop', h⟩
      · obtain ⟨body, stop, ls', rfl, hbody, hstop, h⟩ := ((closesAll_of_neither hs he).1 h).nested
        exact ⟨l :: body, stop, ls', rfl, .line hs he hbody, hstop, h⟩
termination_by ls.length
decreasing_by all_goals simp_all <;> omega

theorem closing_iff : Closing ls ↔ ClosesAll 1 ls := by
  constructor
  · rintro ⟨body, stop, rfl, hbody, hstop⟩
    exact hbody.closesAll_append.2 ((closesAll_of_ends hstop).2 rfl)
  · intro h
    obtain ⟨body, stop, ls', rfl, hbody, hstop, h⟩ := h.nested
    cases ls' with
    | nil => exact ⟨body, stop, rfl, hbody, hstop⟩
    | cons l ls' => exact absurd rfl h.1

theorem typed_cons (l : String) (ls : List String) : typed (l :: ls) = l.toList ++ '\n' :: typed ls := by simp [typed]

theorem ask_of_input (prompt : String) (hl : IsLine l) (hw : w.input = typed (l :: ls) ++ rest) :
    ask prompt w = .ok l { w with input := typed ls ++ rest, out := w.out ++ prompt } := by
  have hin : w.input = l.toList ++ '\n' :: (typed ls ++ rest) := by simpa [typed_cons] using hw
  have hmem : ∀ c ∈ l.toList, (c != '\n') = true := fun c hc => by
    simpa using fun h : c = '\n' => hl.1 (h ▸ hc)
  have hline : w.input.takeWhile (· != '\n') = l.toList := by simp [hin, takeWhile_append_of_pos hmem]
  have hrest : (w.input.dropWhile (· != '\n')).drop 1 = typed ls ++ rest := by
    simp [hin, dropWhile_append_of_pos hmem]
  show (if w.input.isEmpty = true then _ else _ : Eval String) { w with out := w.out ++ prompt } = _
  rw [if_neg (by simp [hin])]
  show (if w.input.takeWhile (· != '\n') = interruptLine then _ else _ : Eval String)
    { w with input := (w.input.dropWhile (· != '\n')).drop 1, out := w.out ++ prompt } = _
  rw [hline, hrest, if_neg hl.2, String.ofList_toList]
  rfl

theorem ask_of_end (prompt : String) (hw : w.input = []) :
    ask prompt w = .error (.fault .endOfInput) { w with input := [], out := w.out ++ prompt } := by
  show (if w.input.isEmpty = true then _ else _ : Eval String) { w with out := w.out ++ prompt } = _
  rw [hw]
  rfl

theorem blockLines_of_closesAll (hls : ∀ l ∈ ls, IsLine l) (hw : w.input = typed ls ++ rest) (hn : ls.length ≤ n)
    (hd : d.blocks ≠ 0) (h : ClosesAll d.blocks ls) :
    ∃ out, blockLines n d w = .ok (indented d ls) { w with input := rest, out := out } := by
  induction ls generalizing w n d with
  | nil => exact absurd h hd
  | cons l ls ih =>
    cases n with
    | zero => simp at hn
    | succ n =>
      have h := after_blocks d (trimmed l) ▸ h.2
      unfold blockLines
      rw [bind_ok (ask_of_input _ (hls l (by simp)) hw)]
      split
      · next hz =>
        cases ls with
        | nil => exact ⟨_, rfl⟩
        | cons l' ls => exact absurd hz h.1
      · next hz =>
        obtain ⟨out, h⟩ := ih (w := { w with input := _, out := _ }) (fun l hl => hls l (by simp [hl])) rfl
          (by simpa using hn) hz h
        rw [bind_ok h]
        exact ⟨_, rfl⟩

theorem blockLines_of_not_closesAll (hls : ∀ l ∈ ls, IsLine l) (hw : w.input = typed ls ++ []) (hn : ls.length < n)
    (h : ∀ p, p <+: ls → ¬ ClosesAll d.blocks p) :
    ∃ out, blockLines n d w = .error (.fault .endOfInput) { w with input := [], out := out } := by
  induction ls generalizing w n d with
  | nil =>
    cases n with
    | zero => simp at hn
    | succ n => exact ⟨_, bind_error (ask_of_end _ hw)⟩
  | cons l ls ih =>
    cases n with
    | zero => simp at hn
    | succ n =>
      have hnext (p : List String) (hp : p <+: ls) (hc : ClosesAll (d.after (trimmed l)).blocks p) : False :=
        h (l :: p) (by simpa using hp) ⟨h [] (by simp), after_blocks d _ ▸ hc⟩
      have hopen : (d.after (trimmed l)).blocks ≠ 0 := hnext [] (by simp)
      unfold blockLines
      rw [bind_ok (ask_of_input _ (hls l (by simp)) hw), if_neg hopen]
      obtain ⟨out, h⟩ := ih (w := { w with input := _, out := _ }) (fun l hl => hls l (by simp [hl])) rfl
        (by simpa using hn) hnext
      exact ⟨_, bind_error h⟩

theorem length_le_typed (ls : List String) : ls.length ≤ (typed ls).length := by
  induction ls with
  | nil => simp
  | cons l ls ih =>
    rw [typed_cons]
    simp
    omega

theorem readBlock_of_closing (hls : ∀ l ∈ ls, IsLine l) (hw : w.input = typed ls ++ rest) (h : Closing ls) :
    ∃ out, readBlock l w = .ok (some ("\n".intercalate (l :: indented .first ls)))
    { w with input := rest, out := out } := by
  have hn : ls.length ≤ w.input.length + 2 := by
    have := length_le_typed ls
    simp [hw]
    omega
  obtain ⟨out, h⟩ := blockLines_of_closesAll (d := .first) hls hw hn (by decide) (closing_iff.1 h)
  exact ⟨out, tryCatch_ok (bind_ok h)⟩

theorem readBlock_of_not_closing (hls : ∀ l ∈ ls, IsLine l) (hw : w.input = typed ls ++ [])
    (h : ∀ p, p <+: ls → ¬ Closing p) : ∃ out,
    readBlock l w = .ok none { w with input := [], out := out ++ "\nBlock input cancelled" ++ "\n" } := by
  have hn : ls.length < w.input.length + 2 := by
    have := length_le_typed ls
    simp [hw]
    omega
  obtain ⟨out, h⟩ := blockLines_of_not_closesAll (d := .first) hls hw hn fun p hp hc => h p hp (closing_iff.2 hc)
  refine ⟨out, ?_⟩
  unfold readBlock
  rw [tryCatch_error ((bind_ok (show linesLeft w = .ok _ w from rfl)).trans (bind_error h))]
  rfl

section

variable (hlines : ∀ l ∈ first :: ls, IsLine l) (hstart : startsBlock (trimmed first))
include hlines hstart

theorem turn_of_starts (hw : w.input = typed (first :: ls) ++ rest) :
    turn w = (do
      if endsBlock (trimmed first) then showEnding (← Session.run "<stdin>" first) else
      match ← readBlock first with
      | some text => showEnding (← Session.run "<stdin>" text)
      | none => return ()) { w with input := typed ls ++ rest, out := w.out ++ "uttr > " } := by
  have hne : (trimmed first).isEmpty = false := by
    cases h : trimmed first with
    | nil => exact absurd (h ▸ hstart) (by decide)
    | cons c cs => rfl
  unfold turn
  rw [bind_ok (ask_of_input _ (hlines first (by simp)) hw)]
  rw [hne, hstart]
  cases endsBlock (trimmed first)
  · rfl
  · rfl

theorem turn_of_not_closing (he : ¬ endsBlock (trimmed first)) (hw : w.input = typed (first :: ls) ++ [])
    (h : ∀ p, p <+: ls → ¬ Closing p) : Cancelled w := by
  unfold Cancelled
  rw [turn_of_starts hlines hstart hw, if_neg he]
  exact (readBlock_of_not_closing (fun l hl => hlines l (by simp [hl])) rfl h).imp fun _ h => bind_ok h

/-- A turn whose first line begins a block: what it runs, and when. -/
theorem turn_collects (hw : w.input = typed (first :: ls) ++ rest) :
    (endsBlock (trimmed first) → Runs w first (typed ls ++ rest)) ∧
    (¬ endsBlock (trimmed first) →
      (Closing ls → Runs w ("\n".intercalate (first :: indented .first ls)) rest) ∧
      ((∀ p, p <+: ls → ¬ Closing p) → rest = [] → Cancelled w)) := by
  refine ⟨fun he => ?_, fun he => ⟨fun h => ?_, fun h hrest => turn_of_not_closing hlines hstart he (hrest ▸ hw) h⟩⟩
  · unfold Runs
    rw [turn_of_starts hlines hstart hw, if_pos he]
    exact ⟨_, rfl⟩
  · unfold Runs
    rw [turn_of_starts hlines hstart hw, if_neg he]
    exact (readBlock_of_closing (fun l hl => hlines l (by simp [hl])) rfl h).imp fun _ h => bind_ok h

end

end

namespace Block

theorem turn_collects_when :
    Runs (Session.start ⟨"/w", [], "/h", []⟩ "when 1:\nshow 2;\nend;\n") "when 1:\n    show 2;\n    end;" [] := by
  have hclosing : Closing ["show 2;", "end;"] :=
    ⟨["show 2;"], "end;", rfl, .line (by decide) (by decide) .nil, by decide⟩
  have hlines : ∀ l ∈ "when 1:" :: ["show 2;", "end;"], IsLine l := by decide
  have hread : (Session.start ⟨"/w", [], "/h", []⟩ "when 1:\nshow 2;\nend;\n").input =
      typed ["when 1:", "show 2;", "end;"] ++ [] := by decide
  exact ((turn_collects hlines (by decide) hread).2 (by decide)).1 hclosing

/-- A block with another one on a single line inside. -/
def oneLine : List String := ["when 1:", "when 1: show 2;", "end;"]

def parses (ls : List String) : Bool :=
  match Token.scan ⟨"<stdin>", "\n".intercalate ls⟩ with
  | .ok lexemes => (Grammar.parse lexemes).isOk
  | .error _ => false

theorem oneLine_cancelled : parses oneLine ∧ (∀ n < 3, 0 < n → ¬ parses (oneLine.take n)) ∧
    Cancelled (Session.start ⟨"/w", [], "/h", []⟩ "when 1:\nwhen 1: show 2;\nend;\n") := by
  refine ⟨by decide +kernel, by decide +kernel, ?_⟩
  have hlines : ∀ l ∈ "when 1:" :: oneLine.tail, IsLine l := by decide
  refine turn_of_not_closing hlines (by decide) (by decide) (by decide) fun p hp hc => ?_
  rw [closing_iff, prefix_iff_eq_take.1 hp] at hc
  generalize p.length = n at hc
  match n with
  | 0 => nomatch hc
  | 1 => exact absurd hc.2 (show ¬ _ = 0 by decide)
  | n + 2 =>
    rw [take_of_length_le (by simp [oneLine])] at hc
    exact absurd hc.2.2 (show ¬ _ = 0 by decide)

end Block

end Utterance.Shell

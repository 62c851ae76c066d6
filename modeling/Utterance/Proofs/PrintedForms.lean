import Mathlib.Data.Finset.Card
import Mathlib.Order.Monotone.Basic
import Utterance.Value.Printing

/-!
# The depth of printed forms

A value is printed with the values that lie in it, to a depth beyond the number of values that there are. With a
greater depth, no more values have a printed form: each further depth at which more of them are printed takes one of
finitely many. So the printed form of a value is what the printed forms of the values in it are put together to
(`printed_eq`).
-/

namespace Utterance

namespace Printing

variable {α β : Type}

/-- One printing approximates another if it has no end or gives the same. -/
def Approximates (x y : Printing α) : Prop := x = ExceptT.mk none ∨ x = y

namespace Approximates

protected theorem refl (x : Printing α) : x.Approximates x := .inr rfl

protected theorem bind {x y : Printing α} {f g : α → Printing β} (h : x.Approximates y)
    (hf : ∀ a, (f a).Approximates (g a)) : (x >>= f).Approximates (y >>= g) := by
  rcases h with rfl | rfl
  · exact .inl rfl
  · rcases x with _ | _ | a
    · exact .inl rfl
    · exact .inr rfl
    · exact hf a

protected theorem mapM {f g : α → Printing β} (l : List α) (h : ∀ a, (f a).Approximates (g a)) :
    (l.mapM f).Approximates (l.mapM g) := by
  induction l with
  | nil => exact .refl _
  | cons a l ih =>
    rw [List.mapM_cons, List.mapM_cons]
    exact (h a).bind fun _ => ih.bind fun _ => .refl _

end Approximates

end Printing

namespace Store

variable (s : Store) (f : Form)

theorem printedWith_approximates {inner inner' : Ref → Printing String}
    (h : ∀ r, (inner r).Approximates (inner' r)) (r : Ref) :
    (s.printedWith f inner r).Approximates (s.printedWith f inner' r) := by
  unfold printedWith
  cases (s.cell r).payload with
  | list | tuple => exact (Printing.Approximates.mapM _ h).bind fun _ => .refl _
  | dict n =>
    refine (Printing.Approximates.mapM _ fun e => ?_).bind fun _ => .refl _
    exact (Printing.Approximates.refl _).bind fun _ => (h e.2).bind fun _ => .refl _
  | found matched => cases matched <;> exact .refl _
  | _ => exact .refl _

theorem printedTo_succ (n : Nat) (r : Ref) : (s.printedTo f n r).Approximates (s.printedTo f (n + 1) r) := by
  induction n generalizing r with
  | zero => exact .inl rfl
  | succ n ih => exact s.printedWith_approximates f ih r

/-- The values that are printed to a depth. -/
def printable (n : Nat) : Finset Ref :=
  (Finset.range s.cells.size).filter fun r => (s.printedTo f (n + 1) r).run.isSome

theorem printable_subset (n : Nat) : s.printable f n ⊆ s.printable f (n + 1) := by
  intro r hr
  obtain ⟨hlt, hsome⟩ := Finset.mem_filter.1 hr
  refine Finset.mem_filter.2 ⟨hlt, ?_⟩
  rcases s.printedTo_succ f (n + 1) r with hn | he
  · rw [hn] at hsome
    cases hsome
  · rwa [← he]

/-- If no more values are printed to the next depth, nothing changes there. -/
theorem printedTo_eq_succ {n : Nat} (h : (s.printable f n).card = (s.printable f (n + 1)).card) :
    s.printedTo f (n + 1) = s.printedTo f (n + 2) := by
  have hsame := Finset.eq_of_subset_of_card_le (s.printable_subset f n) (Nat.le_of_eq h.symm)
  funext r
  rcases s.printedTo_succ f (n + 1) r with hn | he
  · by_cases hr : r < s.cells.size
    · have hnot : r ∉ s.printable f (n + 1) := by
        rw [← hsame]
        intro hm
        have hsome := (Finset.mem_filter.1 hm).2
        rw [hn] at hsome
        cases hsome
      cases hx : s.printedTo f (n + 2) r with
      | none => exact hn
      | some x => exact absurd (Finset.mem_filter.2 ⟨Finset.mem_range.2 hr, by rw [hx]; rfl⟩) hnot
    · -- where there is no value, a number is printed
      have hcell : s.cell r = default := by
        rw [cell, Array.getD_eq_getD_getElem?, Array.getElem?_eq_none (Nat.le_of_not_lt hr)]
        rfl
      rw [printedTo, printedTo, printedWith, printedWith, hcell]
      rfl
  · exact he

theorem printedTo_size : s.printedTo f (s.cells.size + 1) = s.printedTo f (s.cells.size + 2) := by
  have hmono : Monotone fun n => (s.printable f n).card :=
    monotone_nat_of_le_succ fun n => Finset.card_le_card (s.printable_subset f n)
  have hbound (n : Nat) : (s.printable f n).card ≤ s.cells.size :=
    (Finset.card_filter_le _ _).trans (Nat.le_of_eq (Finset.card_range _))
  refine s.printedTo_eq_succ f (Nat.stabilises_of_monotone hmono hbound (fun n h => ?_) (Nat.le_succ _)).symm
  have hnext : s.printedTo f (n + 2) = s.printedTo f (n + 3) := congrArg (s.printedWith f) (s.printedTo_eq_succ f h)
  unfold printable
  rw [hnext]

/-- A depth beyond the number of values makes no difference. -/
theorem printedTo_eq {n : Nat} (h : s.cells.size < n) : s.printedTo f n = s.printed f := by
  induction n, h using Nat.le_induction with
  | base => rfl
  | succ n _ ih =>
    funext r
    rw [printedTo, ih]
    exact congrFun (s.printedTo_size f).symm r

/-- A value is printed as the values that lie in it are printed. -/
theorem printed_eq (r : Ref) : s.printed f r = s.printedWith f (s.printed f) r :=
  congrFun (s.printedTo_size f) r

end Store

end Utterance

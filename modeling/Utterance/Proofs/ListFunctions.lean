import Utterance.Proofs.Splitting

/-!
# Functions of lists

The functions `range` and `reverse` of the library fill a list of their own in a loop; `max_list` and `min_list` run
through a list and keep the best element.
-/

namespace Utterance

open Eval Script Library List

variable {best : String} {k n : Nat} {ns : List Int} {rel : Scalar.Order} {s : Int}

variable {known : List (String × Meaning)}

def Datum.ints (ns : List Int) : Datum := .list (ns.map .int)

def rangeRound : Script := .block [
  .call "append" [.name "result", .name "current"],
  .put (.operator .add (.name "current") (.name "step_val")) "current"]

def rangeLoop (rel : Scalar.Order) : Script :=
  .when (.operator (.order rel) (.name "step_val") (.int 0)) (.block [
    .loop (.operator (.order (if rel = .gt then .lt else .gt)) (.name "current") (.name "stop_val")) rangeRound])

def rangeCode : List Script := [
  .put (.block []) "result",
  .put (.name "start_val") "current",
  rangeLoop .gt,
  rangeLoop .lt,
  .give (.name "result")]

def reverseRound : Script := .block [
  .call "append" [.name "result", .operator .div (.name "list") (.name "i")],
  .put (.operator .sub (.name "i") (.int 1)) "i"]

def reverseCode : List Script := [
  .put (.block []) "result",
  .put (.operator .sub (.call "len" [.name "list"]) (.int 1)) "i",
  .loop (.operator (.order .ge) (.name "i") (.int 0)) reverseRound,
  .give (.name "result")]

/-- The code of `max_list` and `min_list`: the name of the best element, and how a better one compares with it. -/
def bestCode (best : String) (rel : Scalar.Order) : List Script := [
  .when (.operator .eq (.call "len" [.name "list"]) (.int 0)) (.block [.give (.name "null")]),
  .put (.operator .div (.name "list") (.int 0)) best,
  .each "item" (.name "list") (.block [
    .when (.operator (.order rel) (.name "item") (.name best)) (.block [.put (.name "item") best])]),
  .give (.name best)]

set_option maxRecDepth 8000 in
/-- The text of the module is read once for all four functions. -/
noncomputable def listsRead : { cs // listsText = String.ofList cs ∧
    DefinedIn (statements cs) "range" ["start_val", "stop_val", "step_val"] (.block rangeCode) ∧
    DefinedIn (statements cs) "reverse" ["list"] (.block reverseCode) ∧
    DefinedIn (statements cs) "max_list" ["list"] (.block (bestCode "max_val" .gt)) ∧
    DefinedIn (statements cs) "min_list" ["list"] (.block (bestCode "min_val" .lt)) } :=
  ⟨_, rfl, by decide +kernel⟩

theorem range_defined : Defined listsText "range" ["start_val", "stop_val", "step_val"] (.block rangeCode) :=
  ⟨listsRead, listsRead.2.1, listsRead.2.2.1⟩

theorem reverse_defined : Defined listsText "reverse" ["list"] (.block reverseCode) :=
  ⟨listsRead, listsRead.2.1, listsRead.2.2.2.1⟩

theorem max_defined : Defined listsText "max_list" ["list"] (.block (bestCode "max_val" .gt)) :=
  ⟨listsRead, listsRead.2.1, listsRead.2.2.2.2.1⟩

theorem min_defined : Defined listsText "min_list" ["list"] (.block (bestCode "min_val" .lt)) :=
  ⟨listsRead, listsRead.2.1, listsRead.2.2.2.2.2⟩

def rangePlan (a b s : Int) (k : Nat) : Plan where
  known := [("step_val", .datum (.int s)), ("stop_val", .datum (.int b)), ("start_val", .datum (.int a)),
    ("append", .builtin .append), ("current", .datum (.int (a + k * s)))]
  own := some ("result", (List.range k).map fun i : Nat => a + i * s)

theorem rangeRound_acts (a b s : Int) (k : Nat) :
    Acts (rangePlan a b s k) rangeRound (.falls (rangePlan a b s (k + 1))) := by
  have hplan : rangePlan a b s (k + 1) = ⟨(rangePlan a b s (k + 1)).known,
      some ("result", ((List.range k).map fun i : Nat => a + i * s) ++ [a + k * s])⟩ := by
    rw [rangePlan, range_succ, map_append, map_singleton]
  have hnext : a + k * s + s = a + (k + 1 : Nat) * s := by
    rw [Nat.cast_succ, add_mul, one_mul, add_assoc]
  rw [hplan]
  refine .block (.cons (.append rfl (.name rfl)) (.cons (.putInt (.int_eq (.add (.name rfl) (.name rfl)) hnext) ?_)
    .nil))
  rintro x ns ⟨⟩
  decide

theorem rangeLoop_acts {a b : Int} (hrel : rel = .lt ∨ rel = .gt)
    (hs : rel.Orders s 0) (hn : ∀ k : Nat, k < n ↔ rel.Orders b (a + k * s)) :
    Acts (rangePlan a b s 0) (rangeLoop rel) (.falls (rangePlan a b s n)) := by
  have hloop := Acts.loop (c := .operator (.order (if rel = .gt then .lt else .gt)) (.name "current")
    (.name "stop_val"))
    n (fun k _ => .order (.name rfl) (.name rfl) ?_) fun k _ => rangeRound_acts a b s k
  · exact .choice (.order (.name rfl) (.int 0) Iff.rfl) (fun _ => .block (.cons hloop .nil)) (absurd hs)
  · rw [hn]
    rcases hrel with rfl | rfl <;> rfl

theorem rangeLoop_rests {a b : Int} (hs : ¬ rel.Orders s 0) :
    Acts (rangePlan a b s n) (rangeLoop rel) (.falls (rangePlan a b s n)) :=
  .choice (.order (.name rfl) (.int 0) Iff.rfl) (absurd · hs) fun _ => rfl

theorem range_of_loops {a b : Int} {m : Nat}
    (hup : Acts (rangePlan a b s 0) (rangeLoop .gt) (.falls (rangePlan a b s m)))
    (hdown : Acts (rangePlan a b s m) (rangeLoop .lt) (.falls (rangePlan a b s n))) :
    Computes listsText "range" [.append] [.int a, .int b, .int s]
      (.ints ((List.range n).map fun i : Nat => a + i * s)) := by
  refine range_defined.computes rfl (.cons (.makeList rfl) ?_)
  refine .cons (.putInt (.int_eq (m := a) (n := a + (0 : Nat) * s) (.name rfl) (by simp)) ?_)
    (.cons hup (.cons hdown (.stop (.give (.name rfl)))))
  rintro x ns ⟨⟩
  decide

theorem exists_count (a b : Int) (hs : 0 < s) : ∃ n : Nat, ∀ k : Nat, k < n ↔ a + k * s < b := by
  refine ⟨((b - a + s - 1) / s).toNat, fun k => ?_⟩
  rw [Int.lt_toNat, ← Int.add_one_le_iff, Int.le_ediv_iff_mul_le hs, add_mul, one_mul]
  omega

/-- `range` ends for all integers, with all terms of the progression that are before the bound. -/
theorem range_computes (a b s : Int) : ∃ ns : List Int,
    Computes listsText "range" [.append] [.int a, .int b, .int s] (.ints ns) ∧
    (∀ {k : Nat} {x : Int}, ns[k]? = some x → x = a + k * s) ∧
    (0 < s → ∀ k : Nat, k < ns.length ↔ a + k * s < b) ∧ (s < 0 → ∀ k : Nat, k < ns.length ↔ b < a + k * s) ∧
    (s = 0 → ns = []) := by
  have hterms {n k : Nat} {x : Int} (h : ((List.range n).map fun i : Nat => a + i * s)[k]? = some x) :
      x = a + k * s := by
    obtain ⟨hk, rfl⟩ := List.getElem?_eq_some_iff.1 h
    rw [getElem_map, getElem_range]
  rcases lt_trichotomy s 0 with hs | hs | hs
  · obtain ⟨n, hn⟩ := exists_count (-a) (-b) (Int.neg_pos_of_neg hs)
    have hcount (k : Nat) : k < n ↔ b < a + k * s := by
      rw [hn, mul_neg]
      omega
    refine ⟨_, range_of_loops (rangeLoop_rests (Int.not_lt.2 hs.le)) (rangeLoop_acts (.inl rfl) hs hcount), hterms,
      fun h => absurd h (Int.not_lt.2 hs.le), fun _ k => ?_, fun h => absurd h hs.ne⟩
    rw [length_map, length_range, hcount]
  · subst hs
    exact ⟨[], range_of_loops (rangeLoop_rests (Int.lt_irrefl 0)) (rangeLoop_rests (Int.lt_irrefl 0)), nofun,
      fun h => absurd h (Int.lt_irrefl 0), fun h => absurd h (Int.lt_irrefl 0), fun _ => rfl⟩
  · obtain ⟨n, hn⟩ := exists_count a b hs
    refine ⟨_, range_of_loops (rangeLoop_acts (.inr rfl) hs hn) (rangeLoop_rests (Int.not_lt.2 hs.le)), hterms,
      fun _ k => ?_, fun h => absurd h (Int.not_lt.2 hs.le), fun h => absurd h hs.ne.symm⟩
    rw [length_map, length_range, hn]

/-- `range(5, 0, -2)`. -/
theorem range_computes_down : Gave listsText "range" [.append] [.int 5, .int 0, .int (-2)] (.ints [5, 3, 1]) := by
  obtain ⟨ns, hns, hterms, -, hlength, -⟩ := range_computes 5 0 (-2)
  have htwo := hlength (by decide) 2
  have hthree := hlength (by decide) 3
  obtain ⟨x, y, z, rfl⟩ := length_eq_three.1 (show ns.length = 3 by omega)
  obtain rfl : x = 5 := hterms (k := 0) rfl
  obtain rfl : y = 3 := hterms (k := 1) rfl
  obtain rfl : z = 1 := hterms (k := 2) rfl
  exact range_defined.gave (by simp [written_int]) hns

def reversePlan (ns : List Int) (k : Nat) : Plan where
  known := [("list", .datum (.ints ns)), ("len", .builtin .len), ("append", .builtin .append),
    ("i", .datum (.int (ns.length - 1 - k)))]
  own := some ("result", ns.reverse.take k)

theorem reverseRound_acts (hk : k < ns.length) :
    Acts (reversePlan ns k) reverseRound (.falls (reversePlan ns (k + 1))) := by
  have hlt : k < ns.reverse.length := by rwa [length_reverse]
  have hplan : reversePlan ns (k + 1) = ⟨(reversePlan ns (k + 1)).known,
      some ("result", ns.reverse.take k ++ [ns.reverse[k]])⟩ := by
    rw [reversePlan, take_concat_get' _ _ hlt]
  have hplace : (ns.length - 1 - k : Int) = (ns.length - 1 - k : Nat) := by omega
  have helement : (ns.map Datum.int)[ns.length - 1 - k]? = some (.int ns.reverse[k]) := by
    rw [getElem_reverse, getElem?_map, getElem?_eq_getElem (by omega), Option.map_some]
  rw [hplan]
  refine .block (.cons (.append rfl (.element (.name rfl) (.int_eq (.name rfl) hplace) helement)) ?_)
  refine .cons (.putInt (.int_eq (.sub (.name rfl) (.int 1)) (by omega)) ?_) .nil
  rintro x ns ⟨⟩
  decide

theorem reverse_computes (ns : List Int) :
    Computes listsText "reverse" [.len, .append] [.ints ns] (.ints ns.reverse) := by
  refine reverse_defined.computes rfl (.cons (.makeList rfl) ?_)
  have hlen : ((ns.map Datum.int).length - 1 : Int) = ns.length - 1 - (0 : Nat) := by simp
  have hloop := Acts.loop (σ := reversePlan ns) (c := .operator (.order .ge) (.name "i") (.int 0)) ns.length
    (fun k _ => .order (.name rfl) (.int 0) ?_) fun k hk => reverseRound_acts hk
  · have hall : reversePlan ns ns.length = ⟨(reversePlan ns ns.length).known, some ("result", ns.reverse)⟩ := by
      rw [reversePlan, take_of_length_le (by simp)]
    rw [hall] at hloop
    refine .cons (.putInt (.int_eq (.sub (.call rfl (.cons (.name rfl) .nil) answers_len) (.int 1)) hlen) ?_)
      (.cons hloop (.stop (.give (.name rfl))))
    rintro x ns ⟨⟩
    decide
  · show (0 : Int) ≤ ns.length - 1 - k ↔ _
    omega

def better (rel : Scalar.Order) (m n : Int) : Int := if rel.Orders n m then n else m

theorem best_of (hrel : rel = .lt ∨ rel = .gt) (ns : List Int) (m : Int) :
    (ns.foldl (better rel) m = m ∨ ns.foldl (better rel) m ∈ ns) ∧ ¬ rel.Orders m (ns.foldl (better rel) m) ∧
      ∀ n ∈ ns, ¬ rel.Orders n (ns.foldl (better rel) m) := by
  induction ns generalizing m with
  | nil =>
    refine ⟨.inl rfl, ?_, nofun⟩
    rcases hrel with rfl | rfl <;> exact Int.lt_irrefl m
  | cons n ns ih =>
    obtain ⟨hmem, hfirst, hrest⟩ := ih (better rel m n)
    rw [foldl_cons]
    generalize ns.foldl (better rel) (better rel m n) = b at hmem hfirst hrest
    unfold better at hmem hfirst
    have hboth : (b = m ∨ b = n ∨ b ∈ ns) ∧ ¬ rel.Orders m b ∧ ¬ rel.Orders n b := by
      by_cases hn : rel.Orders n m
      · rw [if_pos hn] at hmem hfirst
        rcases hrel with rfl | rfl <;> simp only [Scalar.Order.Orders] at hn hfirst ⊢ <;> grind
      · rw [if_neg hn] at hmem hfirst
        rcases hrel with rfl | rfl <;> simp only [Scalar.Order.Orders] at hn hfirst ⊢ <;> grind
    rw [mem_cons, forall_mem_cons]
    exact ⟨hboth.1, hboth.2.1, hboth.2.2, hrest⟩

def bestKnown (best : String) (rel : Scalar.Order) (ns : List Int) (m : Int) (k : Nat) : List (String × Meaning) :=
  [("list", .datum (.ints ns)), ("len", .builtin .len), (best, .datum (.int ((ns.take k).foldl (better rel) m)))]

theorem bestRound_acts {m : Int} {d : Datum}
    (hbest : best = "max_val" ∨ best = "min_val") (hd : (ns.map Datum.int)[k]? = some d) :
    Acts ⟨("item", .datum d) :: bestKnown best rel ns m k, none⟩ (.block [
      .when (.operator (.order rel) (.name "item") (.name best)) (.block [.put (.name "item") best])])
      (.falls ⟨("item", .datum d) :: bestKnown best rel ns m (k + 1), none⟩) := by
  rw [getElem?_map, Option.map_eq_some_iff] at hd
  obtain ⟨n, hn, rfl⟩ := hd
  have hnext : (ns.take (k + 1)).foldl (better rel) m = better rel ((ns.take k).foldl (better rel) m) n := by
    rw [take_add_one, hn, foldl_append]
    rfl
  rw [bestKnown, bestKnown, hnext]
  generalize (ns.take k).foldl (better rel) m = b
  unfold better
  rcases hbest with rfl | rfl
  all_goals
    by_cases hb : rel.Orders n b
    · rw [if_pos hb]
      exact .block (.cons (.choice (.order (.name rfl) (.name rfl) Iff.rfl)
        (fun _ => .block (.cons (.put (.name rfl)) .nil))
        (absurd hb)) .nil)
    · rw [if_neg hb]
      exact .block (.cons (.choice (.order (.name rfl) (.name rfl) Iff.rfl) (absurd · hb) fun _ => rfl) .nil)

theorem best_does (hbest : best = "max_val" ∨ best = "min_val") (n : Int)
    (ns : List Int) : Does ⟨[("list", .datum (.ints (n :: ns))), ("len", .builtin .len)], none⟩ (bestCode best rel)
      (.gives (.int ((n :: ns).foldl (better rel) n))) := by
  have hlen : Has [("list", .datum (.ints (n :: ns))), ("len", .builtin .len)] (.call "len" [.name "list"])
      (.int (n :: ns).length) :=
    .int_eq (.call rfl (.cons (.name rfl) .nil) answers_len) (by simp)
  refine .cons (.choice (.equal hlen (.int 0)) (fun h => absurd h (by simp; omega)) fun _ => rfl) ?_
  have heach := Acts.each (σ := bestKnown best rel (n :: ns) n) (x := "item") (s := .name "list") (.name rfl) ?_
    (bestRound_acts hbest)
  · rw [length_map] at heach
    have hall : bestKnown best rel (n :: ns) n (n :: ns).length = [("list", .datum (.ints (n :: ns))),
      ("len", .builtin .len),
        (best, .datum (.int ((n :: ns).foldl (better rel) n)))] := by
      rw [bestKnown, take_length]
    rw [hall] at heach
    rcases hbest with rfl | rfl
    all_goals exact .cons (.put (.element (.name rfl) (.int (0 : Nat)) rfl)) (.cons heach (.stop (.give (.name rfl))))
  · intro k
    rcases hbest with rfl | rfl <;> rfl

theorem best_computes {text name : String} (hrel : rel = .lt ∨ rel = .gt)
    (hbest : best = "max_val" ∨ best = "min_val") (h : Defined text name ["list"] (.block (bestCode best rel)))
    (hns : ns ≠ []) : ∃ m ∈ ns, (∀ n ∈ ns, ¬ rel.Orders n m) ∧ Computes text name [.len] [.ints ns] (.int m) := by
  obtain ⟨n, ns, rfl⟩ := exists_cons_of_ne_nil hns
  obtain ⟨hmem, -, hall⟩ := best_of hrel (n :: ns) n
  refine ⟨_, ?_, hall, h.computes rfl (best_does hbest n ns)⟩
  rcases hmem with hm | hm
  · rw [hm]
    exact mem_cons_self
  · exact hm

/-- `reverse` makes a new list and leaves its argument as it is, so that reversing twice gives the list; `max_list`
and `min_list` give an element that no other one exceeds or is below. -/
theorem reverse_max_min_compute (ns : List Int) :
    Computes listsText "reverse" [.len, .append] [.ints ns] (.ints ns.reverse) ∧
    (∀ {v f frame node w l}, LibraryFunction v f listsText "reverse" (Meaning.builtins [.len, .append]) →
      Calls frame f [l] node w v → Denotes v.store (.ints ns) l → ∃ r u, evaluate node frame w = .ok r u ∧ r ≠ l ∧
        Denotes u.store (.ints ns.reverse) r ∧ Denotes u.store (.ints ns) l ∧
        ∀ {v' f' frame' node' w'}, KeepsBut ∅ u v' →
          LibraryFunction v' f' listsText "reverse" (Meaning.builtins [.len, .append]) →
          Calls frame' f' [r] node' w' v' → Creates v' (.ints ns) (evaluate node' frame' w')) ∧
    (ns ≠ [] → (∃ m ∈ ns, (∀ n ∈ ns, n ≤ m) ∧ Computes listsText "max_list" [.len] [.ints ns] (.int m)) ∧
      ∃ m ∈ ns, (∀ n ∈ ns, m ≤ n) ∧ Computes listsText "min_list" [.len] [.ints ns] (.int m)) := by
  refine ⟨reverse_computes ns, fun {v f frame node w l} hf hcall hl => ?_, fun hns => ⟨?_, ?_⟩⟩
  · obtain ⟨r, u, hr, hnew, hu, hd⟩ := (reverse_computes ns).creates hf hcall ⟨l, _, rfl, hl, rfl⟩
    have htwice := reverse_computes ns.reverse
    rw [reverse_reverse] at htwice
    exact ⟨r, u, hr, Nat.ne_of_gt (Nat.lt_of_lt_of_le hl.lt hnew), hd, hl.kept hu,
      fun hk hf' hcall' => htwice.creates hf' hcall' ⟨r, _, rfl, hd.kept hk, rfl⟩⟩
  · simpa only [Scalar.Order.Orders, Int.not_lt] using best_computes (.inr rfl) (.inl rfl) max_defined hns
  · simpa only [Scalar.Order.Orders, Int.not_lt] using best_computes (.inl rfl) (.inr rfl) min_defined hns

/-- `reverse([3, -1, 7])`, and the best elements of this list. -/
theorem reverse_max_min_compute_three :
    Gave listsText "reverse" [.len, .append] [.ints [3, -1, 7]] (.ints [7, -1, 3]) ∧
    Gave listsText "max_list" [.len] [.ints [3, -1, 7]] (.int 7) ∧
    Gave listsText "min_list" [.len] [.ints [3, -1, 7]] (.int (-1)) := by
  obtain ⟨hreverse, -, hbest⟩ := reverse_max_min_compute [3, -1, 7]
  obtain ⟨⟨m, hm, hmax, hm'⟩, k, hk, hmin, hk'⟩ := hbest (by decide)
  have written : ∀ d ∈ [Datum.ints [3, -1, 7]], Written d := by
    intro d hd
    obtain rfl := mem_singleton.1 hd
    exact written_list (by simp [written_int])
  obtain rfl : m = 7 := by simp at hm hmax; omega
  obtain rfl : k = -1 := by simp at hk hmin; omega
  exact ⟨reverse_defined.gave written hreverse, max_defined.gave written hm', min_defined.gave written hk'⟩

end Utterance

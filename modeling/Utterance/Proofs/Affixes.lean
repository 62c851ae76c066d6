import Utterance.Proofs.Splitting

/-!
# The beginnings and ends of texts

The functions `starts_with` and `ends_with` of the library cut a part off a text and compare it. Where `substring` is
asked for a part that ends at zero, it takes the rest of the text instead; so the empty text is found at the end of
every text, but at the beginning of the empty one only.
-/

namespace Utterance

open Eval Script Library List Text

variable {s : String}

variable {known : List (String × Meaning)}

theorem answers_len_text : Answers .len [.text s] (.int s.length) := by
  refine .len fun {c u r} hr => ?_
  rw [Call.len, bind_ok (show payload r u = .ok _ u from rfl), hr.2]

def cutEnd (s : String) (j : Int) : Int := if j = 0 then s.length else j

/-- A part of a text. The first index has to be a new value: the value of nothing is refused there. -/
theorem Script.Has.substring {text first last : Script} {i j : Int}
    (hb : known.lookup "substring" = some (.builtin .substring)) (hs : Has known text (.text s))
    (hi : New known first (.int i)) (hj : Has known last (.int j)) :
    Has known (.call "substring" [text, first, last]) (.text (String.ofList (slice s.toList i (cutEnd s j)))) := by
  refine .callOf hb fun {nodes frame w} hf hw => ?_
  rcases nodes with _ | ⟨n₁, _ | ⟨n₂, _ | ⟨n₃, _ | _⟩⟩⟩ <;>
    simp only [fitAll, Bool.and_false, Bool.and_true, Bool.and_eq_true, Bool.false_eq_true] at hf
  obtain ⟨hn₁, hn₂, hn₃⟩ := hf
  obtain ⟨r, v₁, hr, hv₁, hs₁⟩ := hs.supplies hn₁ hw
  obtain ⟨v₂, hstart, hv₂, hi⟩ := hi.makes hn₂ (hw.adds hv₁)
  obtain ⟨q, v, hq, hv, hj⟩ := hj.supplies hn₃ ((hw.adds hv₁).adds hv₂)
  refine ⟨_, v, mapM_cons_ok hr (mapM_cons_ok hstart (mapM_cons_ok hq rfl)), (hv₁.trans hv₂).trans hv,
    .supplies rfl fun {c u} hu => ?_⟩
  have hs : Denotes u.store (.text s) r := hs₁.kept ((hv₂.trans hv).trans hu).keeps
  have hi : Denotes u.store (.int i) v₁.size := hi.kept (hv.trans hu).keeps
  have hj : Denotes u.store (.int j) q := hj.kept hu.keeps
  let made : Cell := .fresh (.string (.text (String.ofList (slice s.toList i (cutEnd s j)))))
  have hnumber {details : String} : c.number v₁.size details u = .ok (.int i) u := by
    rw [Call.number, bind_ok (show payload _ u = .ok _ u from rfl), hi.2]
    rfl
  have hnull : v₁.size ≠ Store.null := Nat.ne_of_gt (Nat.zero_lt_of_lt hs₁.lt)
  have hcut : builtin evaluate c .substring [r, v₁.size, q] u = .ok u.size (u.alloc made) := by
    show c.substring r _ q u = _
    rw [Call.substring, bind_ok (hs.string c _)]
    refine (bind_ok hnumber).trans ?_
    rw [if_neg hnull, bind_ok (show lift (Scalar.int i).toInteger u = .ok i u from rfl),
      bind_ok (show payload q u = .ok _ u from rfl), hj.2]
    by_cases hzero : j = 0
    · simp only [made, cutEnd, if_pos hzero]
      subst hzero
      rfl
    · simp only [made, cutEnd, if_neg hzero]
      have hlast : (Scalar.int j).isZero ≠ true := fun h => hzero (eq_of_beq h)
      exact congrFun (if_neg hlast) u
  exact ⟨_, _, hcut, .alloc u made, World.lt_alloc_size u made, by rw [World.cell_alloc_size]; rfl⟩

def startsCode : List Script := [
  .put (.call "len" [.name "prefix"]) "prefix_len",
  .when (.operator (.order .lt) (.call "len" [.name "text"]) (.name "prefix_len")) (.block [.give (.int 0)]),
  .put (.call "substring" [.name "text", .int 0, .name "prefix_len"]) "start",
  .give (.operator .eq (.name "start") (.name "prefix"))]

def endsCode : List Script := [
  .put (.call "len" [.name "suffix"]) "suffix_len",
  .put (.call "len" [.name "text"]) "text_len",
  .when (.operator (.order .lt) (.name "text_len") (.name "suffix_len")) (.block [.give (.int 0)]),
  .put (.operator .sub (.name "text_len") (.name "suffix_len")) "start_pos",
  .put (.call "substring" [.name "text", .name "start_pos", .name "text_len"]) "ending",
  .give (.operator .eq (.name "ending") (.name "suffix"))]

set_option maxRecDepth 8000 in
noncomputable def affixesRead : { cs // stringsText = String.ofList cs ∧
    DefinedIn (statements cs) "starts_with" ["text", "prefix"] (.block startsCode) ∧
    DefinedIn (statements cs) "ends_with" ["text", "suffix"] (.block endsCode) } :=
  ⟨_, rfl, by decide +kernel⟩

theorem starts_defined : Defined stringsText "starts_with" ["text", "prefix"] (.block startsCode) :=
  ⟨affixesRead, affixesRead.2.1, affixesRead.2.2.1⟩

theorem ends_defined : Defined stringsText "ends_with" ["text", "suffix"] (.block endsCode) :=
  ⟨affixesRead, affixesRead.2.1, affixesRead.2.2.2⟩

theorem ofList_eq_iff {cs : List Char} : String.ofList cs = s ↔ cs = s.toList :=
  ⟨fun h => by rw [← h, String.toList_ofList], fun h => by rw [h, String.ofList_toList]⟩

theorem slice_of_le {s : List Char} {a b : Nat} (ha : a ≤ s.length) (hb : b ≤ s.length) :
    slice s a b = (s.take b).drop a := by
  rw [slice, clampIndex, clampIndex, if_neg (by omega), if_neg (by omega), Int.toNat_natCast,
    Int.toNat_natCast, Nat.min_eq_left ha, Nat.min_eq_left hb]

theorem start_eq_iff {t p : String} (h : p.length ≤ t.length) :
    String.ofList (slice t.toList 0 (cutEnd t p.length)) = p ↔ p.toList <+: t.toList ∧ (p = "" → t = "") := by
  by_cases hp : p = ""
  · subst hp
    have hwhole := slice_of_le (Nat.zero_le t.toList.length) (Nat.le_refl _)
    rw [take_length, drop_zero, String.length_toList] at hwhole
    have hcut : cutEnd t ("".length : Nat) = t.length := if_pos rfl
    rw [hcut]
    show String.ofList (slice t.toList (0 : Nat) t.length) = "" ↔ _
    rw [hwhole, String.ofList_toList]
    simp
  · have hcut : cutEnd t p.length = p.length := if_neg (by simpa using hp)
    have htake := slice_of_le (Nat.zero_le _) (String.length_toList ▸ h : p.length ≤ t.toList.length)
    rw [hcut, ofList_eq_iff]
    show slice t.toList (0 : Nat) p.length = _ ↔ _
    rw [htake, drop_zero, prefix_iff_eq_take, String.length_toList, eq_comm]
    simp [hp]

theorem ending_eq_iff {t p : String} (h : p.length ≤ t.length) :
    String.ofList (slice t.toList (t.length - p.length) (cutEnd t t.length)) = p ↔ p.toList <:+ t.toList := by
  have hcut : cutEnd t t.length = t.length := by
    unfold cutEnd
    split <;> rfl
  have hdrop := slice_of_le (Nat.sub_le t.toList.length p.toList.length) (Nat.le_refl _)
  rw [take_length, Nat.cast_sub (by simpa only [String.length_toList] using h), String.length_toList,
    String.length_toList] at hdrop
  rw [hcut, hdrop, ofList_eq_iff, suffix_iff_eq_drop, String.length_toList, String.length_toList, eq_comm]

theorem has_len {x : String} (hlen : known.lookup "len" = some (.builtin .len))
    (hx : known.lookup x = some (.datum (.text s))) : Has known (.call "len" [.name x]) (.int s.length) :=
  .call hlen (.cons (.name hx) .nil) answers_len_text

theorem starts_computes (t p : String) :
    Computes stringsText "starts_with" [.len, .substring] [.text t, .text p]
      (.int (if p.toList <+: t.toList ∧ (p = "" → t = "") then 1 else 0)) := by
  refine starts_defined.computes rfl (.cons (.put (has_len rfl rfl)) ?_)
  by_cases hlt : t.length < p.length
  · rw [if_neg fun h => Nat.not_le.2 hlt (by simpa only [String.length_toList] using h.1.length_le)]
    exact .stop (.choice (.order (has_len rfl rfl) (.name rfl) Nat.cast_lt) (fun _ => .block (.stop (.give (.int 0))))
      (absurd hlt))
  · refine .cons (.choice (.order (has_len rfl rfl) (.name rfl) Nat.cast_lt) (absurd · hlt) fun _ => rfl) ?_
    refine .cons (.put (.substring rfl (.name rfl) (.int 0) (.name rfl))) (.stop (.give ?_))
    exact .int_eq (.equalText (.name rfl) (.name rfl)) (if_congr (start_eq_iff (Nat.le_of_not_lt hlt)) rfl rfl)

theorem ends_computes (t p : String) :
    Computes stringsText "ends_with" [.len, .substring] [.text t, .text p]
      (.int (if p.toList <:+ t.toList then 1 else 0)) := by
  refine ends_defined.computes rfl (.cons (.put (has_len rfl rfl)) (.cons (.put (has_len rfl rfl)) ?_))
  by_cases hlt : t.length < p.length
  · rw [if_neg fun h => Nat.not_le.2 hlt (by simpa only [String.length_toList] using h.length_le)]
    exact .stop (.choice (.order (.name rfl) (.name rfl) Nat.cast_lt) (fun _ => .block (.stop (.give (.int 0))))
      (absurd hlt))
  · refine .cons (.choice (.order (.name rfl) (.name rfl) Nat.cast_lt) (absurd · hlt) fun _ => rfl) ?_
    refine .cons (.put (.sub (.name rfl) (.name rfl))) ?_
    refine .cons (.put (.substring rfl (.name rfl) (.name rfl) (.name rfl))) (.stop (.give ?_))
    exact .int_eq (.equalText (.name rfl) (.name rfl)) (if_congr (ending_eq_iff (Nat.le_of_not_lt hlt)) rfl rfl)

/-- `ends_with` tells whether a text is the end of another one; `starts_with` tells whether it is the beginning, but
finds the empty text at the beginning of the empty text only. -/
theorem affixes_compute (t p : String) :
    Computes stringsText "starts_with" [.len, .substring] [.text t, .text p]
      (.int (if p.toList <+: t.toList ∧ (p = "" → t = "") then 1 else 0)) ∧
    Computes stringsText "ends_with" [.len, .substring] [.text t, .text p]
      (.int (if p.toList <:+ t.toList then 1 else 0)) :=
  ⟨starts_computes t p, ends_computes t p⟩

theorem written_pair (s t : String) : ∀ d ∈ [Datum.text s, .text t], Written d := by
  simp [written_text]

/-- `starts_with("abc", "ab")` and `ends_with("abc", "")` give one, `ends_with("abc", "ab")` gives zero. -/
theorem affixes_compute_abc :
    Gave stringsText "starts_with" [.len, .substring] [.text "abc", .text "ab"] (.int 1) ∧
    Gave stringsText "ends_with" [.len, .substring] [.text "abc", .text ""] (.int 1) ∧
    Gave stringsText "ends_with" [.len, .substring] [.text "abc", .text "ab"] (.int 0) :=
  ⟨starts_defined.gave (written_pair _ _) (affixes_compute "abc" "ab").1,
    ends_defined.gave (written_pair _ _) (affixes_compute "abc" "").2,
    ends_defined.gave (written_pair _ _) (affixes_compute "abc" "ab").2⟩

/-- The empty text is a beginning of `abc`, but `starts_with("abc", "")` gives zero. -/
theorem starts_with_empty : "".toList <+: "abc".toList ∧
    Gave stringsText "starts_with" [.len, .substring] [.text "abc", .text ""] (.int 0) :=
  ⟨List.nil_prefix, starts_defined.gave (written_pair _ _) (starts_computes "abc" "")⟩

end Utterance

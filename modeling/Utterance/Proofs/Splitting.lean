import Utterance.Proofs.LibraryFunctions

/-!
# Splitting and joining texts

`split` cuts a text at the occurrences of a separator, which it finds from the left and without overlaps. No piece has
the separator in it, since an occurrence that begins in a piece would have been found there (`Text.Clear`); with the
separator in between again, the pieces are the text (`joinWith_splitFrom`); and there is one piece more than there are
occurrences (`length_splitFrom`), so the library counts these by the pieces.
-/

namespace Utterance.Text

variable {c : Char} {front x : List Char} {s : String}

/-- How often a text occurs in another one: the occurrences are found from the left and do not overlap. -/
def occurrences (d : List Char) : List Char → Nat
  | [] => 0
  | c :: rest => if d <+: c :: rest then occurrences d (rest.drop (d.length - 1)) + 1 else occurrences d rest
termination_by s => s.length

theorem dropFront?_eq_some_iff {s rest : List Char} : dropFront? front s = some rest ↔ front ++ rest = s := by
  induction front generalizing s with
  | nil => simp [dropFront?, eq_comm]
  | cons c front ih => cases s <;> simp [dropFront?, ih]

theorem startsWith_iff {s : List Char} : startsWith front s = true ↔ front <+: s := by
  simp only [startsWith, Option.isSome_iff_exists, dropFront?_eq_some_iff]
  rfl

variable {d s piece : List Char}

theorem splitFrom_skip (d : List Char) (n : Nat) (piece s : List Char) :
    splitFrom d n piece s = splitFrom d 0 piece (s.drop n) := by
  induction s generalizing n with
  | nil => simp [splitFrom]
  | cons c s ih =>
    cases n with
    | zero => rfl
    | succ n => exact ih n

/-- A piece ends where the separator occurs. -/
theorem splitFrom_found (h : d <+: c :: s) :
    splitFrom d 0 piece (c :: s) = piece.reverse :: splitFrom d 0 [] (s.drop (d.length - 1)) := by
  rw [splitFrom, if_pos (startsWith_iff.2 h), splitFrom_skip]

theorem splitFrom_other (h : ¬ d <+: c :: s) : splitFrom d 0 piece (c :: s) = splitFrom d 0 (c :: piece) s := by
  rw [splitFrom, if_neg fun hs => h (startsWith_iff.1 hs)]

theorem splitFrom_ne_nil (d : List Char) (n : Nat) (piece s : List Char) : splitFrom d n piece s ≠ [] := by
  fun_induction splitFrom d n piece s <;> simp_all

theorem length_splitFrom (d s piece : List Char) : (splitFrom d 0 piece s).length = occurrences d s + 1 := by
  fun_induction occurrences d s generalizing piece with
  | case1 => rfl
  | case2 c s h ih => rw [splitFrom_found h, List.length_cons, ih]
  | case3 c s h ih => rw [splitFrom_other h, ih]

theorem joinWith_cons {xs : List (List Char)} (h : xs ≠ []) : joinWith d (x :: xs) = x ++ d ++ joinWith d xs := by
  cases xs with
  | nil => exact absurd rfl h
  | cons y ys => rfl

theorem joinWith_splitFrom (hd : d ≠ []) (s piece : List Char) :
    joinWith d (splitFrom d 0 piece s) = piece.reverse ++ s := by
  fun_induction occurrences d s generalizing piece with
  | case1 => simp [splitFrom, joinWith]
  | case2 c s h ih =>
    obtain ⟨rest, hrest⟩ := h
    obtain ⟨a, d, rfl⟩ := List.exists_cons_of_ne_nil hd
    have hs : s = d ++ rest := (List.cons.inj hrest).2.symm
    rw [splitFrom_found ⟨rest, hrest⟩, joinWith_cons (splitFrom_ne_nil _ _ _ _), ih, ← hrest, hs]
    simp
  | case3 c s h ih =>
    rw [splitFrom_other h, ih]
    simp

/-- No occurrence of a separator begins in a piece, whatever follows the piece up to the end of the text. -/
def Clear (d piece s : List Char) : Prop := ∀ a b, piece.reverse ++ s = a ++ d ++ b → piece.length ≤ a.length

theorem Clear.not_infix (h : Clear d piece s) (hd : d ≠ []) : ¬ d <:+: piece.reverse := by
  rintro ⟨a, b, hab⟩
  have hle := h a (b ++ s) (by rw [← hab]; simp)
  have hlen := congrArg List.length hab
  have hpos := List.length_pos_of_ne_nil hd
  simp only [List.length_append, List.length_reverse] at hlen
  omega

theorem Clear.cons (h : Clear d piece (c :: s)) (hc : ¬ d <+: c :: s) : Clear d (c :: piece) s := by
  intro a b hab
  rw [List.reverse_cons, List.append_assoc, List.singleton_append] at hab
  refine Nat.lt_of_le_of_ne (h a b hab) fun hlen => hc ?_
  rw [List.append_assoc] at hab
  exact ⟨b, (List.append_inj_right hab (by simpa using hlen)).symm⟩

theorem not_infix_of_mem_splitFrom (hd : d ≠ []) (h : Clear d piece s) (hx : x ∈ splitFrom d 0 piece s) :
    ¬ d <:+: x := by
  fun_induction occurrences d s generalizing piece with
  | case1 =>
    rw [splitFrom, List.mem_singleton] at hx
    exact hx ▸ h.not_infix hd
  | case2 c s hc ih =>
    rw [splitFrom_found hc] at hx
    rcases List.mem_cons.1 hx with rfl | hx
    · exact h.not_infix hd
    · exact ih (fun _ _ _ => Nat.zero_le _) hx
  | case3 c s hc ih =>
    rw [splitFrom_other hc] at hx
    exact ih (h.cons hc) hx

end Utterance.Text

namespace Utterance

open Eval Text

def Datum.texts (ts : List (List Char)) : Datum := .list (ts.map fun t => .text (String.ofList t))

theorem Denotes.string {u : World} {r : Ref} (h : Denotes u.store (.text s) r) (c : Call) (details : String) :
    c.string r details u = .ok (.text s) u := by
  rw [Call.string, bind_ok (show payload r u = .ok _ u from rfl), h.2]
  rfl

theorem mapM_newString (ts : List (List Char)) (w : World) :
    ∃ rs u, ts.mapM (fun t => newString (String.ofList t)) w = .ok rs u ∧ Adds w u ∧
      DenoteAll u.store (ts.map fun t => .text (String.ofList t)) rs := by
  induction ts generalizing w with
  | nil => exact ⟨[], w, rfl, .refl w, rfl⟩
  | cons t ts ih =>
    let c : Cell := .fresh (.string (.text (String.ofList t)))
    obtain ⟨rs, u, hrs, hu, hds⟩ := ih (w.alloc c)
    have hd : Denotes (w.alloc c).store (.text (String.ofList t)) w.size :=
      ⟨World.lt_alloc_size w c, by rw [World.cell_alloc_size]; rfl⟩
    refine ⟨w.size :: rs, u, ?_, (Adds.alloc w c).trans hu, _, rs, rfl, hd.kept hu.keeps, hds⟩
    rw [List.mapM_cons, bind_ok (show newString _ w = .ok _ (w.alloc c) from rfl), bind_ok hrs]
    rfl

theorem answers_split (ht : t ≠ "") : Answers .split [.text s, .text t] (.texts (splitOn t.toList s.toList)) := by
  refine .of rfl fun {c u rs} hrs => ?_
  obtain ⟨r, _, rfl, hr, d, _, rfl, hd, rfl⟩ := hrs
  have hdelimiter : c.delimiter d u = .ok (.text t) u := by
    rw [Call.delimiter, bind_ok (show payload d u = .ok _ u from rfl), hd.2]
    rfl
  have hpieces : Call.piecesOf s.toList (.text t) u = .ok (splitOn t.toList s.toList) u := by
    rw [Call.piecesOf, if_neg (by simpa using ht)]
    rfl
  obtain ⟨rs, v, hrs, hv, hds⟩ := mapM_newString (splitOn t.toList s.toList) u
  have hsplit : builtin evaluate c .split [r, d] u = .ok v.size (v.alloc (.fresh (.list rs.toArray))) := by
    show c.split r d u = _
    rw [Call.split, bind_ok (hr.string c _), bind_ok hdelimiter,
      bind_ok (show text (.text s) "split" u = .ok s u from rfl),
      bind_ok hpieces, bind_ok hrs]
    rfl
  refine ⟨_, _, hsplit, hv.trans (.alloc v _), World.lt_alloc_size v _, rs.toArray, ?_, hds.kept (.of_alloc v _)⟩
  rw [World.cell_alloc_size]
  rfl

theorem Answers.len {d : Datum} {n : Nat} (h : ∀ {c : Call} {u r}, Denotes u.store d r → c.len r u = newNumber n u) :
    Answers .len [d] (.int n) := by
  refine .of rfl fun {c u rs} hrs => ?_
  obtain ⟨r, _, rfl, hr, rfl⟩ := hrs
  have hlen : builtin evaluate c .len [r] u = .ok u.size (u.alloc (.fresh (.number (.int n)))) := h hr
  exact ⟨_, _, hlen, .alloc u _, World.lt_alloc_size u _, by rw [World.cell_alloc_size]; rfl⟩

theorem answers_len {ds : List Datum} : Answers .len [.list ds] (.int ds.length) := by
  refine .len fun {c u r} hr => ?_
  obtain ⟨-, es, hp, hds⟩ := hr
  rw [Call.len, bind_ok (show payload r u = .ok _ u from rfl), hp, hds.length_eq]
  rfl

theorem mapM_joinPart (c : Call) {u : World} {ts : List (List Char)} {rs : List Ref}
    (h : DenoteAll u.store (ts.map fun t => .text (String.ofList t)) rs) :
    rs.mapM c.joinPart u = .ok (ts.map fun t => .text (String.ofList t)) u := by
  induction ts generalizing rs with
  | nil =>
    obtain rfl : rs = [] := h
    rfl
  | cons t ts ih =>
    obtain ⟨q, rest, rfl, hq, hrest⟩ := h
    have hpart : c.joinPart q u = .ok (.text (String.ofList t)) u := by
      rw [Call.joinPart, bind_ok (show payload q u = .ok _ u from rfl), hq.2]
      rfl
    rw [List.mapM_cons, bind_ok hpart, bind_ok (ih hrest)]
    rfl

theorem partTexts_texts (n : Nat) (ts : List (List Char)) :
    Call.partTexts n (ts.map fun t => .text (String.ofList t)) = .ok ts := by
  induction ts generalizing n with
  | nil => rfl
  | cons t ts ih =>
    rw [List.map_cons, Call.partTexts, ih, String.toList_ofList]
    rfl

theorem answers_join {ts : List (List Char)} :
    Answers .join [.texts ts, .text t] (.text (String.ofList (joinWith t.toList ts))) := by
  refine .of rfl fun {c u rs} hrs => ?_
  obtain ⟨r, _, rfl, ⟨-, es, hp, hds⟩, d, _, rfl, hd, rfl⟩ := hrs
  have hlist : c.list r "First argument must be list" u = .ok es u := by
    rw [Call.list, bind_ok (show payload r u = .ok _ u from rfl), hp]
    rfl
  have hjoin : builtin evaluate c .join [r, d] u =
      .ok u.size (u.alloc (.fresh (.string (.text (String.ofList (joinWith t.toList ts)))))) := by
    show c.join r d u = _
    rw [Call.join, bind_ok hlist, bind_ok (hd.string c _), bind_ok (mapM_joinPart c hds),
      bind_ok (show text (.text t) "join" u = .ok t u from rfl),
      partTexts_texts]
    rfl
  exact ⟨_, _, hjoin, .alloc u _, World.lt_alloc_size u _, by rw [World.cell_alloc_size]; rfl⟩

/-- The code of the function that counts occurrences. -/
def countCode : List Script := [
  .put (.call "split" [.name "text", .name "substr"]) "parts",
  .put (.operator .sub (.call "len" [.name "parts"]) (.int 1)) "count",
  .give (.name "count")]

set_option maxRecDepth 8000 in
noncomputable def countRead : { cs // Library.stringsText = String.ofList cs ∧
    Library.DefinedIn (Library.statements cs) "count_occurrences" ["text", "substr"] (.block countCode) } :=
  ⟨_, rfl, by decide +kernel⟩

theorem count_defined :
    Library.Defined Library.stringsText "count_occurrences" ["text", "substr"] (.block countCode) :=
  ⟨countRead, countRead.2⟩

theorem count_computes (ht : t ≠ "") :
    Library.Computes Library.stringsText "count_occurrences" [.split, .len] [.text s, .text t]
      (.int (occurrences t.toList s.toList)) := by
  have hcount : (((splitOn t.toList s.toList).map fun t => Datum.text (String.ofList t)).length - 1 : Int) =
      occurrences t.toList s.toList := by
    rw [List.length_map, splitOn, length_splitFrom]
    omega
  refine count_defined.computes rfl ?_
  refine .cons (.put (.call rfl (.cons (.name rfl) (.cons (.name rfl) .nil)) (answers_split ht))) ?_
  refine .cons (.put (.int_eq (.sub (.call rfl (.cons (.name rfl) .nil) answers_len) (.int 1)) hcount)) ?_
  exact .stop (.give (.name rfl))

/-- Splitting a text gives pieces without the separator, which joined again are the text, and the library counts the
occurrences of the separator. -/
theorem join_split_count {s t : String} (ht : t ≠ "") {v : World} {r d : Ref} (hr : Denotes v.store (.text s) r)
    (hd : Denotes v.store (.text t) d) :
    ∃ pieces : List (List Char), pieces ≠ [] ∧ (∀ p ∈ pieces, ¬ t.toList <:+: p) ∧
      Performs v (.call .split) [r, d] (Supplies v (.texts pieces)) ∧
      (∀ {u l e}, Denotes u.store (.texts pieces) l → Denotes u.store (.text t) e →
        Performs u (.call .join) [l, e] (Supplies u (.text s))) ∧
      ∀ {f frame node w},
        LibraryFunction v f Library.stringsText "count_occurrences"
          [("split", .builtin .split), ("len", .builtin .len)] →
        Calls frame f [r, d] node w v →
        Yields v (.int (occurrences t.toList s.toList)) (evaluate node frame w) := by
  have hne : t.toList ≠ [] := by simpa using ht
  have hargs : DenoteAll v.store [.text s, .text t] [r, d] := ⟨r, _, rfl, hr, d, _, rfl, hd, rfl⟩
  refine ⟨splitOn t.toList s.toList, splitFrom_ne_nil _ _ _ _, fun p hp => ?_,
    (answers_split ht).performs hargs,
    fun {u l e} hl he => ?_, fun {f frame node w} hf hcall => ?_⟩
  · exact not_infix_of_mem_splitFrom hne (fun _ _ _ => Nat.zero_le _) hp
  · have hjoined : String.ofList (joinWith t.toList (splitOn t.toList s.toList)) = s := by
      rw [splitOn, joinWith_splitFrom hne]
      simp
    have hperforms := answers_join.performs (v := u) ⟨l, _, rfl, hl, e, _, rfl, he, rfl⟩
    rwa [hjoined] at hperforms
  · exact ((count_computes ht).creates hf hcall hargs).yields

/-- A separator that overlaps itself: `count_occurrences("aaaaa", "aa")`. -/
theorem join_split_count_overlap : ∃ frame node w v f r d, Calls frame f [r, d] node w v ∧
    LibraryFunction v f Library.stringsText "count_occurrences" [("split", .builtin .split), ("len", .builtin .len)] ∧
    Denotes v.store (.text "aaaaa") r ∧ Denotes v.store (.text "aa") d ∧
    (∃ pieces : List (List Char), pieces ≠ [] ∧ (∀ p ∈ pieces, ¬ "aa".toList <:+: p) ∧
      Performs v (.call .split) [r, d] (Supplies v (.texts pieces))) ∧ Yields v (.int 2) (evaluate node frame w) := by
  have written : ∀ d ∈ [Datum.text "aaaaa", .text "aa"], Written d := by simp [written_text]
  obtain ⟨frame, node, w, v, f, rs, hcall, hf, r, _, rfl, hr, d, _, rfl, hd, rfl⟩ :=
    count_defined.exists_call [.split, .len] written
  obtain ⟨pieces, hne, hclear, hsplit, -, hcount⟩ := join_split_count (by decide) hr hd
  have htwo : occurrences "aa".toList "aaaaa".toList = 2 := by simp [occurrences]
  rw [htwo] at hcount
  exact ⟨frame, node, w, v, f, r, d, hcall, hf, hr, hd, ⟨pieces, hne, hclear, hsplit⟩, hcount hf hcall⟩

end Utterance

import Utterance.Proofs.MatchingOperations

/-!
# Built-in functions in matched worlds

Built-in functions do the same in matched worlds (`builtin_steady`), all but the one that runs a script.
-/

namespace Utterance

variable {details : String} {rs' : List Ref}

namespace Matching

open Eval Call List

variable {M : Matching} {r r' q q' p p' : Nat} {w w' : World} {C : World → Prop} {α β γ : Type} {R : Nat → α → β → Prop}
  {c c' : Call}

variable (hw : M.Worlds w w') (hr : M.Twins w.size r r') (hq : M.Twins w.size q q')

include hw hr

variable {g : Scalar → Eval α} {g' : Scalar → Eval β} {rs : List Ref}

theorem Meets.list {g : Array Ref → Eval α} {g' : Array Ref → Eval β}
    (h : ∀ es es' : Array Ref, Forall₂ (M.Twins w.size) es.toList es'.toList → M.Meets C R (g es) (g' es') w w') :
    M.Meets C R (c.list r details >>= g) (c'.list r' details >>= g') w w' := by
  unfold Call.list
  rw [bind_assoc, bind_assoc]
  refine .payload hw hr fun p p' hp => ?_
  cases hp with
  | list hes => exact h _ _ hes
  | _ => exact .error hw _

theorem Meets.string (h : ∀ s, M.Meets C R (g s) (g' s) w w') :
    M.Meets C R (c.string r details >>= g) (c'.string r' details >>= g') w w' := by
  unfold Call.string
  rw [bind_assoc, bind_assoc]
  refine .payload hw hr fun p p' hp => ?_
  cases hp with
  | string s => exact h s
  | _ => exact .error hw _

theorem Meets.number (h : ∀ s, M.Meets C R (g s) (g' s) w w') :
    M.Meets C R (c.number r details >>= g) (c'.number r' details >>= g') w w' := by
  unfold Call.number
  rw [bind_assoc, bind_assoc]
  refine .payload hw hr fun p p' hp => ?_
  cases hp with
  | number s => exact h s
  | _ => exact .error hw _

theorem Meets.dict {g : Nat → Eval α} {g' : Nat → Eval β} (h : ∀ n, M.Meets C R (g n) (g' n) w w') :
    M.Meets C R (c.dict r details >>= g) (c'.dict r' details >>= g') w w' := by
  unfold Call.dict
  rw [bind_assoc, bind_assoc]
  refine .payload hw hr fun p p' hp => ?_
  cases hp with
  | dict n => exact h n
  | _ => exact .error hw _

theorem Meets.key
    (h : ∀ s, M.Meets C R (g s) (g' s) w w') : M.Meets C R (c.key r >>= g) (c'.key r' >>= g') w w' := by
  unfold Call.key
  rw [bind_assoc, bind_assoc]
  refine .payload hw hr fun p p' hp => ?_
  cases hp with
  | number s | string s => exact h s
  | _ => exact .error hw _

omit hw hr

/-- Computations that do the same in every world: both give a result or both fail. -/
class inductive Plain : Eval γ → Eval γ → Prop
  | pure (a : γ) : Plain (pure a) (pure a)
  | fault (f : Fault) : Plain (fault f) (fault f)
  | error {start stop start' stop' : Option Position} {levels levels' : List Level} (details : String) :
    Plain (error start stop details levels) (error start' stop' details levels')

attribute [instance] Plain.pure Plain.fault Plain.error

theorem Meets.plain {x y : Eval γ} [hx : Plain x y] {g : γ → Eval α} {g' : γ → Eval β} (hw : M.Worlds w w')
    (h : ∀ a, M.Meets C R (g a) (g' a) w w') : M.Meets C R (x >>= g) (y >>= g') w w' := by
  cases hx with
  | pure a => exact h a
  | fault f => exact .fault hw f
  | error details => exact .error hw details

instance (type property : String) : Plain (noProperty type property : Eval γ) (noProperty type property) := .fault _

instance (details : String) : Plain (c.refuse details : Eval γ) (c'.refuse details) := .error _

instance (s : Scalar) (property : String) : Plain (text s property) (text s property) := by
  unfold text
  split <;> infer_instance

instance (chars : List Char) (d : Scalar) : Plain (piecesOf chars d) (piecesOf chars d) := by
  unfold piecesOf
  split
  · split <;> infer_instance
  · infer_instance

instance (position : Nat) (s : Scalar) : Plain (replaceArgument position s) (replaceArgument position s) := by
  unfold replaceArgument
  split <;> infer_instance

instance (s : Scalar) : Plain (cuttable s) (cuttable s) := by
  unfold cuttable
  split <;> infer_instance

instance (x : Except Pattern.Refusal γ) : Plain (c.ofPattern x) (c'.ofPattern x) := by
  unfold ofPattern
  split <;> infer_instance

instance (source : Except Scalar Pattern.Compiled) : Plain (c.compiled source) (c'.compiled source) := by
  unfold compiled
  split <;> infer_instance

instance (s : Scalar) : Plain (subject s) (subject s) := by
  unfold subject
  split <;> infer_instance

instance (s : Scalar) : Plain (template s) (template s) := by
  unfold template
  split <;> infer_instance

theorem keyValue_alike {T : Ref → Ref → Prop} (key : Scalar) : (keyValue key).Alike T (keyValue key) := by
  cases key <;> constructor

include hw

theorem newNumber_steady (n : Int) : M.Agree (newNumber n) (newNumber n) w w' :=
  fresh_steady hw (.number _)

theorem newString_steady (s : String) : M.Agree (newString s) (newString s) w w' :=
  fresh_steady hw (.string _)

theorem newTruth_steady (b : Bool) : M.Agree (newTruth b) (newTruth b) w w' :=
  fresh_steady hw (.number _)

theorem newList_steady (h : Forall₂ (M.Twins w.size) rs rs') : M.Agree (newList rs) (newList rs') w w' :=
  fresh_steady hw (.list h)

theorem mapM_steady {f : γ → Eval Ref} (h : ∀ a v v', M.Worlds v v' → M.Agree (f a) (f a) v v') (l : List γ) :
    M.Steady (fun n => Forall₂ (M.Twins n)) (l.mapM f) (l.mapM f) w w' := by
  refine .mapM (Q := Eq) (fun hn hr => Twins.mono hr hn) hw (List.forall₂_same.2 fun _ _ => rfl) ?_
  intro a b v v' hab _ hv
  rw [← hab]
  exact h a v v' hv

theorem newCharacters_steady (s : Scalar) :
    M.Steady (fun n => Forall₂ (M.Twins n)) (newCharacters s) (newCharacters s) w w' := by
  unfold newCharacters
  split
  · exact mapM_steady hw (fun _ _ _ hv => newString_steady hv _) _
  · exact .fault hw _

theorem textOrNull_steady (s : Option String) : M.Agree (textOrNull s) (textOrNull s) w w' := by
  unfold textOrNull
  split
  · split
    · exact .pure hw hw.null
    · exact newString_steady hw _
  · exact .pure hw hw.null

theorem anyEquals_steady {e e' : Payload} (he : e.Alike (M.Twins w.size) e')
    (hrs : Forall₂ (M.Twins w.size) rs rs') :
    M.Steady Same (anyEquals e rs) (anyEquals e' rs') w w' := by
  induction hrs with
  | nil => exact .pure hw rfl
  | cons hr _ ih =>
    refine .payload hw hr fun p p' hp => ?_
    rw [hp.equals?_eq he]
    split
    · exact .pure hw rfl
    · exact ih
    · exact .fault hw _

/-! ### Collections -/

include hr

theorem len_steady : M.Agree (c.len r) (c'.len r') w w' := by
  refine .payload hw hr fun p p' hp => ?_
  cases hp with
  | @list es es' hes =>
    have hl : es.size = es'.size := hes.length_eq
    dsimp only
    rw [hl]
    exact newNumber_steady hw _
  | tuple hes =>
    dsimp only
    rw [hes.length_eq]
    exact newNumber_steady hw _
  | set ms => exact newNumber_steady hw _
  | string s =>
    cases s with
    | text s => exact newNumber_steady hw _
    | _ => exact .fault hw _
  | _ => exact .error hw _

theorem setElements_steady {f f' : Array Ref → Array Ref}
    (h : ∀ es es' : Array Ref, Forall₂ (M.Twins w.size) es.toList es'.toList →
      Forall₂ (M.Twins w.size) (f es).toList (f' es').toList) :
    M.Steady Same (setElements r f) (setElements r' f') w w' := by
  refine modifyCell_steady hw hr fun c c' hc => ?_
  obtain ⟨p, start, stop, frame⟩ := c
  obtain ⟨p', start', stop', frame'⟩ := c'
  obtain ⟨hp, hf⟩ := hc
  cases hp with
  | list hes => exact ⟨.list (h _ _ hes), .plain rfl _ _⟩
  | function name params hb => exact ⟨.function name params hb, hf⟩
  | tuple hes => exact ⟨.tuple hes, hf⟩
  | _ => exact ⟨by constructor, hf⟩

theorem append_steady (hq : M.Twins w.size q q') : M.Agree (c.append r q) (c'.append r' q') w w' := by
  refine .list hw hr fun _ _ _ => Steady.bind (setElements_steady hw hr fun es es' hes => ?_) fun _ _ _ _ _ hv _ =>
    .pure hv hv.null
  rw [Array.toList_push, Array.toList_push]
  exact rel_append hes (.cons hq .nil)

theorem pop_steady (hq : M.Twins w.size q q') : M.Agree (c.pop r q) (c'.pop r' q') w w' := by
  refine .list hw hr fun es es' hes => .number hw hq fun i => ?_
  have hl : es.size = es'.size := hes.length_eq
  rw [hl]
  split
  · exact Steady.bind (setElements_steady hw hr fun _ _ hes => erase_alike hes _) fun _ _ _ _ hn hv _ =>
      .pure hv ((arrayGetD_alike hes hw.null _).mono hn)
  · exact .error hw _

theorem extend_steady (hq : M.Twins w.size q q') : M.Agree (c.extend r q) (c'.extend r' q') w w' := by
  refine .list hw hr fun _ _ _ => .list hw hq fun more more' hm => ?_
  refine Steady.bind (setElements_steady hw hr fun es es' hes => ?_) fun _ _ _ _ _ hv _ => .pure hv hv.null
  rw [Array.toList_append, Array.toList_append]
  exact rel_append hes hm

theorem sequence_steady : M.Steady (fun n => Forall₂ (M.Twins n)) (sequence r) (sequence r') w w' := by
  refine .payload hw hr fun p p' hp => ?_
  cases hp with
  | list hes | tuple hes => exact .pure hw hes
  | string s => exact newCharacters_steady hw s
  | _ => exact .pure hw (.cons hr .nil)

theorem toTuple_steady : M.Agree (toTuple r) (toTuple r') w w' := by
  refine .payload hw hr fun p p' hp => ?_
  cases hp with
  | tuple hes => exact .pure hw hr
  | _ => exact (sequence_steady hw hr).bind fun _ _ _ _ _ hv hrs => fresh_steady hv (.tuple hrs)

theorem toList_steady : M.Agree (toList r) (toList r') w w' := by
  refine .payload hw hr fun p p' hp => ?_
  cases hp with
  | list hes => exact .pure hw hr
  | _ => exact (sequence_steady hw hr).bind fun _ _ _ _ _ hv hrs => newList_steady hv hrs

theorem keys_steady : M.Agree (c.keys r) (c'.keys r') w w' := by
  refine .dict hw hr fun n => .table hw n fun t t' ht => ?_
  refine Meets.bind (.mapM (R := M.Twins) (fun hn hr => hr.mono hn) hw ht ?_) fun _ _ _ _ _ hv hrs =>
    newList_steady hv hrs
  rintro ⟨key, e⟩ ⟨key', e'⟩ v v' he _ hv
  obtain rfl : key = key' := he.1
  exact fresh_steady hv (keyValue_alike key)

theorem values_steady : M.Agree (c.values r) (c'.values r') w w' := by
  refine .dict hw hr fun n => .table hw n fun t t' ht => newList_steady hw ?_
  rw [List.forall₂_map_left_iff, List.forall₂_map_right_iff]
  exact Forall₂.imp (fun _ _ he => he.2) ht

theorem setFromList_steady : M.Agree (c.setFromList r) (c'.setFromList r') w w' :=
  .list hw hr fun _ _ hes => .store hw fun _ _ hs => .ofPrinting hw (hs.membersOf hes) fun _ => fresh_steady hw (.set _)

include hq

theorem hasKey_steady : M.Agree (c.hasKey r q) (c'.hasKey r' q') w w' := by
  refine .dict hw hr fun n => .key hw hq fun key => .table hw n fun t t' ht => ?_
  have he : (t.get? key).isSome = (t'.get? key).isSome := by
    have hk := ht.get? key
    generalize t.get? key = v, t'.get? key = v' at hk
    cases hk <;> rfl
  rw [he]
  exact newTruth_steady hw _

theorem remove_steady : M.Agree (c.remove r q) (c'.remove r' q') w w' := by
  refine .cell hw hr fun cell cell' hc => ?_
  have hp := hc.payload
  generalize cell.payload = p, cell'.payload = p' at hp ⊢
  cases hp with
  | dict n =>
    refine .key hw hq fun key => .table hw n fun t t' ht => ?_
    have hk := ht.get? key
    generalize t.get? key = v, t'.get? key = v' at hk
    cases hk with
    | none => exact .lift hw _ fun details => .error hw details
    | some hv =>
      refine Steady.bind (R := Same) (fun _ _ => .ok (Nat.le_refl _) (hw.modifyTable n fun _ _ ht => ht.erase key) rfl)
        fun _ _ _ _ hn hu _ => .pure hu (hv.mono hn)
  | set ms =>
    refine .store hw fun s s' hs => .ofPrinting hw (hs.member hq) fun m => ?_
    split
    · exact allocPlain_steady hw rfl (.set _)
    · exact .error hw _
  | _ => exact .error hw _

theorem Meets.bothSets {g : (Cell × Members) × Cell × Members → Eval α}
    {g' : (Cell × Members) × Cell × Members → Eval β}
    (h : ∀ left left' right right' ms ns,
      M.Meets C R (g ((left, ms), (right, ns))) (g' ((left', ms), (right', ns))) w w') :
    M.Meets C R (c.bothSets r q >>= g) (c'.bothSets r' q' >>= g') w w' := by
  unfold Call.bothSets
  simp only [bind_assoc]
  refine .cell hw hr fun left left' hl => .cell hw hq fun right right' hc => ?_
  have hp := hl.payload
  have hp' := hc.payload
  generalize left.payload = p, left'.payload = p' at hp ⊢
  generalize right.payload = p, right'.payload = p' at hp' ⊢
  cases hp with
  | set ms =>
    cases hp' with
    | set ns => exact h left left' right right' ms ns
    | _ => exact .error hw _
  | _ => exact .error hw _

theorem combine_steady (f : Members → Members → Members) : M.Agree (combine f c r q) (combine f c' r' q') w w' :=
  .bothSets hw hr hq fun _ _ _ _ _ _ => allocPlain_steady hw rfl (.set _)

theorem compareSets_steady (f : Members → Members → Bool) :
    M.Agree (compareSets f c r q) (compareSets f c' r' q') w w' :=
  .bothSets hw hr hq fun _ _ _ _ _ _ => newTruth_steady hw _

theorem addMember_steady : M.Agree (c.add r q) (c'.add r' q') w w' := by
  refine .cell hw hr fun cell cell' hc => ?_
  have hp := hc.payload
  generalize cell.payload = p, cell'.payload = p' at hp ⊢
  cases hp with
  | set ms =>
    exact .store hw fun s s' hs => .ofPrinting hw (hs.member hq) fun m => allocPlain_steady hw rfl (.set _)
  | _ => exact .error hw _

theorem contains_steady : M.Agree (c.contains r q) (c'.contains r' q') w w' := by
  refine .payload hw hr fun p p' hp => ?_
  cases hp with
  | set ms => exact .store hw fun s s' hs => .ofPrinting hw (hs.member hq) fun m => newTruth_steady hw _
  | list hes =>
    refine .payload hw hq fun e e' he => (anyEquals_steady hw he hes).bind fun b b' v v' _ hv hb => ?_
    rw [← show b = b' from hb]
    exact newTruth_steady hv b
  | _ => exact .error hw _

omit hq

/-! ### Texts and patterns -/

theorem Meets.delimiter (h : ∀ s, M.Meets C R (g s) (g' s) w w') :
    M.Meets C R (c.delimiter r >>= g) (c'.delimiter r' >>= g') w w' := by
  unfold Call.delimiter
  rw [bind_assoc, bind_assoc]
  refine .payload hw hr fun p p' hp => ?_
  cases hp with
  | number s | string s => exact h _
  | _ => exact .error hw _

theorem split_steady (hq : M.Twins w.size q q') : M.Agree (c.split r q) (c'.split r' q') w w' :=
  .string hw hr fun _ => .delimiter hw hq fun _ => .plain hw fun _ =>
    .plain hw fun pieces =>
      (mapM_steady hw (fun _ _ _ hv => newString_steady hv _) pieces).bind fun _ _ _ _ _ hv hrs => newList_steady hv hrs

theorem joinPart_steady : M.Steady Same (c.joinPart r) (c'.joinPart r') w w' := by
  refine .payload hw hr fun p p' hp => ?_
  cases hp with
  | string s => exact .pure hw rfl
  | number s => exact .lift hw _ fun _ => .pure hw rfl
  | _ => exact .error hw _

theorem join_steady (hq : M.Twins w.size q q') : M.Agree (c.join r q) (c'.join r' q') w w' := by
  refine .list hw hr fun es es' hes => .string hw hq fun sep => Meets.bind (R := fun _ => Forall₂ Eq)
    (.mapM (fun _ h => h) hw hes fun _ _ v v' he hn hv => joinPart_steady hv (he.mono hn)) ?_
  intro parts parts' v v' hn hv hparts
  obtain rfl : parts = parts' := List.forall₂_eq_eq_eq ▸ hparts
  exact .plain hv fun _ => .lift hv _ fun _ => newString_steady hv _

theorem changeCase_steady (f : String → String) (property : String) :
    M.Agree (do newString (f (← text (← c.string r "Argument must be string") property)))
      (do newString (f (← text (← c'.string r' "Argument must be string") property))) w w' :=
  .string hw hr fun _ => .plain hw fun _ => newString_steady hw _

theorem replace_steady (hq : M.Twins w.size q q')
    (hp : M.Twins w.size p p') : M.Agree (c.replace r q p) (c'.replace r' q' p') w w' :=
  .string hw hr fun _ => .string hw hq fun _ => .string hw hp fun _ => .plain hw fun _ =>
    .plain hw fun _ => .plain hw fun _ =>
      newString_steady hw _

theorem substring_steady (hq : M.Twins w.size q q')
    (hp : M.Twins w.size p p') : M.Agree (c.substring r q p) (c'.substring r' q' p') w w' := by
  refine .string hw hr fun s => .number hw hq fun first => ?_
  -- The only reference that is looked at is the one of nothing, which stands for itself.
  rw [if_congr (hq.eq_iff hw.null) rfl rfl]
  split
  · exact .error hw _
  · refine .lift hw _ fun i => .payload hw hp fun p p' hp => ?_
    cases hp with
    | number last =>
      dsimp only
      split
      · exact .plain hw fun _ => newString_steady hw _
      · exact .lift hw _ fun _ => .plain hw fun _ => newString_steady hw _
    | _ => exact .error hw _

theorem Meets.patternSource {g : Except Scalar Pattern.Compiled → Eval α}
    {g' : Except Scalar Pattern.Compiled → Eval β}
    (h : ∀ s, M.Meets C R (g s) (g' s) w w') :
    M.Meets C R (c.patternSource r >>= g) (c'.patternSource r' >>= g') w w' := by
  unfold Call.patternSource
  rw [bind_assoc, bind_assoc]
  refine .payload hw hr fun p p' hp => ?_
  cases hp with
  | regex | string => exact h _
  | _ => exact .error hw _

theorem Meets.patternAndText {g : Pattern.Compiled × String → Eval α} {g' : Pattern.Compiled × String → Eval β}
    (hq : M.Twins w.size q q')
    (h : ∀ s, M.Meets C R (g s) (g' s) w w') :
    M.Meets C R (c.patternAndText r q >>= g) (c'.patternAndText r' q' >>= g') w w' := by
  unfold Call.patternAndText
  simp only [bind_assoc]
  exact .patternSource hw hr fun _ => .string hw hq fun _ => .plain hw fun _ =>
    .plain hw fun _ => h _

include hq

theorem regexMatch_steady : M.Agree (c.regexMatch r q) (c'.regexMatch r' q') w w' :=
  .patternAndText hw hr hq fun _ => fresh_steady hw (.found _)

theorem regexSearch_steady : M.Agree (c.regexSearch r q) (c'.regexSearch r' q') w w' := by
  refine .patternAndText hw hr hq fun found => ?_
  dsimp only
  split
  · exact .pure hw hw.null
  · refine (newString_steady hw _).bind fun a a' v₁ v₁' h₁ hv₁ ha => ?_
    refine (newNumber_steady hv₁ _).bind fun b b' v₂ v₂' h₂ hv₂ hb => ?_
    refine (newNumber_steady hv₂ _).bind fun d d' v₃ v₃' h₃ hv₃ hd => ?_
    refine (mapM_steady hv₃ (fun _ _ _ hv => textOrNull_steady hv _) _).bind fun es es' v₄ v₄' h₄ hv₄ hes => ?_
    refine (newList_steady hv₄ hes).bind fun e e' v₅ v₅' h₅ hv₅ he => ?_
    have hd₅ := hd.mono (Nat.le_trans h₄ h₅)
    have hb₅ := hb.mono (Nat.le_trans h₃ (Nat.le_trans h₄ h₅))
    have ha₅ := ha.mono (Nat.le_trans h₂ (Nat.le_trans h₃ (Nat.le_trans h₄ h₅)))
    have ht : Table.Alike (M.Twins v₅.size)
        [(.text "matched_text", a), (.text "start_pos", b), (.text "end_pos", d), (.text "groups", e)]
        [(.text "matched_text", a'), (.text "start_pos", b'), (.text "end_pos", d'), (.text "groups", e')] :=
      .cons ⟨rfl, ha₅⟩ (.cons ⟨rfl, hb₅⟩ (.cons ⟨rfl, hd₅⟩ (.cons ⟨rfl, he⟩ .nil)))
    refine (newTable_steady hv₅ ht).bind fun n n' v v' _ hv hn => ?_
    rw [← show n = n' from hn]
    exact fresh_steady hv (.dict n)

theorem regexReplace_steady
    (hp : M.Twins w.size p p') : M.Agree (c.regexReplace r q p) (c'.regexReplace r' q' p') w w' :=
  .patternSource hw hr fun _ => .string hw hq fun _ => .string hw hp fun _ => .plain hw fun _ =>
    .plain hw fun _ => .plain hw fun _ => .plain hw fun _ =>
      .plain hw fun _ => newString_steady hw _

theorem regexFindAll_steady : M.Agree (c.regexFindAll r q) (c'.regexFindAll r' q') w w' := by
  refine .patternAndText hw hr hq fun found => ?_
  refine (mapM_steady hw (fun groups v v' hv => ?_) _).bind fun _ _ _ _ _ hv hrs => newList_steady hv hrs
  split
  · exact newString_steady hv _
  · exact (mapM_steady hv (fun _ _ _ hu => textOrNull_steady hu _) _).bind fun _ _ _ _ _ hu hrs =>
      newList_steady hu hrs

theorem regexSplit_steady : M.Agree (c.regexSplit r q) (c'.regexSplit r' q') w w' := by
  refine .patternAndText hw hr hq fun found => ?_
  refine (mapM_steady hw (fun piece v v' hv => ?_) _).bind fun _ _ _ _ _ hv hrs => newList_steady hv hrs
  split
  · exact newString_steady hv _
  · exact fresh_steady hv (.string _)

omit hr hq

theorem integerLine_steady (left : Nat) : M.Steady Same (integerLine left) (integerLine left) w w' := by
  induction left generalizing w w' with
  | zero => exact fun he => absurd rfl (he w)
  | succ left ih =>
    refine (readLine_steady hw).bind fun line line' v v' _ hv hl => ?_
    rw [← show line = line' from hl]
    split
    · exact .pure hv rfl
    · exact (printLine_steady hv _).bind fun _ _ _ _ _ hu _ => ih hu

theorem inputInt_steady : M.Agree inputInt inputInt w w' := by
  refine Steady.bind (x := get) (y := get) (R := fun _ v v' => v.input = v'.input)
    (fun _ _ => .ok (Nat.le_refl _) hw hw.input) fun v v' u u' _ hu hv => ?_
  rw [← show v.input = v'.input from hv]
  refine (integerLine_steady hu _).bind fun n n' t t' _ ht hn => ?_
  rw [← show n = n' from hn]
  exact newNumber_steady ht n

theorem input_steady : M.Agree input input w w' := by
  refine (readLine_steady hw).bind fun line line' v v' _ hv hl => ?_
  rw [← show line = line' from hl]
  exact newString_steady hv line

include hr

theorem display_steady : M.Agree (display r) (display r') w w' :=
  .shown hw hr fun s => (printLine_steady hw s).bind fun _ _ _ _ _ hv _ => .pure hv hv.null

theorem errorMessage_steady : M.Agree (c.errorMessage r) (c'.errorMessage r') w w' := by
  refine .payload hw hr fun p p' hp => ?_
  cases hp with
  | error details title => exact newString_steady hw _
  | _ => exact .error hw _

theorem errorType_steady : M.Agree (c.errorType r) (c'.errorType r') w w' := by
  refine .payload hw hr fun p p' hp => ?_
  cases hp with
  | error details title => exact newString_steady hw _
  | _ => exact .error hw _

omit hw hr

section

variable {T : Ref → Ref → Prop} {args args' : List Ref}

variable (h : Forall₂ T args args')
include h

theorem no_args (hl : 0 = args.length) : args = [] ∧ args' = [] := by
  cases h with
  | nil => exact ⟨rfl, rfl⟩
  | cons => simp at hl

theorem cons_args {n : Nat} (hl : n + 1 = args.length) :
    ∃ r r' rest rest', args = r :: rest ∧ args' = r' :: rest' ∧ T r r' ∧ Forall₂ T rest rest' ∧
    n = rest.length := by
  cases h with
  | nil => simp at hl
  | cons hr h => exact ⟨_, _, _, _, rfl, rfl, hr, h, by simpa using hl⟩

theorem one_arg (hl : 1 = args.length) : ∃ r r', args = [r] ∧ args' = [r'] ∧ T r r' := by
  obtain ⟨r, r', rest, rest', rfl, rfl, hr, h, hl⟩ := cons_args h hl
  obtain ⟨rfl, rfl⟩ := no_args h hl
  exact ⟨r, r', rfl, rfl, hr⟩

theorem two_args (hl : 2 = args.length) : ∃ r r' q q', args = [r, q] ∧ args' = [r', q'] ∧ T r r' ∧ T q q' := by
  obtain ⟨r, r', rest, rest', rfl, rfl, hr, h, hl⟩ := cons_args h hl
  obtain ⟨q, q', rfl, rfl, hq⟩ := one_arg h hl
  exact ⟨r, r', q, q', rfl, rfl, hr, hq⟩

theorem three_args (hl : 3 = args.length) :
    ∃ r r' q q' p p', args = [r, q, p] ∧ args' = [r', q', p'] ∧ T r r' ∧ T q q' ∧ T p p' := by
  obtain ⟨r, r', rest, rest', rfl, rfl, hr, h, hl⟩ := cons_args h hl
  obtain ⟨q, q', p, p', rfl, rfl, hq, hp⟩ := two_args h hl
  exact ⟨r, r', q, q', p, p', rfl, rfl, hr, hq, hp⟩

end

/-! ### All of them -/

/-- A built-in function with the right number of arguments does the same in matched worlds, unless it runs a
script. -/
theorem builtin_steady (hw : M.Worlds w w') (ev ev' : Evaluator) {b : Builtin} (hb : b ≠ .run) {args args' : List Ref}
    (hl : b.params.length = args.length) (h : Forall₂ (M.Twins w.size) args args') :
    M.Agree (builtin ev c b args) (builtin ev' c' b args') w w' := by
  have hlen : b.params.length = 0 ∨ b.params.length = 1 ∨ b.params.length = 2 ∨ b.params.length = 3 := by
    cases b <;> decide
  rcases hlen with hn | hn | hn | hn
  · obtain ⟨rfl, rfl⟩ := no_args h (hn ▸ hl)
    cases b with
    | input => exact input_steady hw
    | inputInt => exact inputInt_steady hw
    | help => exact (printLine_steady hw _).bind fun _ _ _ _ _ hv _ => .pure hv hv.null
    | exit => exact (printLine_steady hw _).bind fun _ _ _ _ _ hv _ => .throw hv .exit
    | clear => exact .pure hw hw.null
    | _ => cases hn
  · obtain ⟨r, r', rfl, rfl, hr⟩ := one_arg h (hn ▸ hl)
    cases b with
    | display => exact display_steady hw hr
    | tuple => exact toTuple_steady hw hr
    | list => exact toList_steady hw hr
    | len => exact len_steady hw hr
    | setFromList => exact setFromList_steady hw hr
    | run => exact absurd rfl hb
    | keys => exact keys_steady hw hr
    | values => exact values_steady hw hr
    | errorMessage => exact errorMessage_steady hw hr
    | errorType => exact errorType_steady hw hr
    | upper => exact changeCase_steady hw hr Text.upper _
    | lower => exact changeCase_steady hw hr Text.lower _
    | _ => cases hn
  · obtain ⟨r, r', q, q', rfl, rfl, hr, hq⟩ := two_args h (hn ▸ hl)
    cases b with
    | append => exact append_steady hw hr hq
    | pop => exact pop_steady hw hr hq
    | extend => exact extend_steady hw hr hq
    | hasKey => exact hasKey_steady hw hr hq
    | remove => exact remove_steady hw hr hq
    | split => exact split_steady hw hr hq
    | join => exact join_steady hw hr hq
    | regexMatch => exact regexMatch_steady hw hr hq
    | regexSearch => exact regexSearch_steady hw hr hq
    | regexFindAll => exact regexFindAll_steady hw hr hq
    | regexSplit => exact regexSplit_steady hw hr hq
    | union | intersection | difference | symmetricDifference => exact combine_steady hw hr hq _
    | isSubset => exact compareSets_steady hw hr hq _
    | isSuperset => exact compareSets_steady hw hr hq fun a b => Members.isSubset b a
    | add => exact addMember_steady hw hr hq
    | contains => exact contains_steady hw hr hq
    | _ => cases hn
  · obtain ⟨r, r', q, q', p, p', rfl, rfl, hr, hq, hp⟩ := three_args h (hn ▸ hl)
    cases b with
    | replace => exact replace_steady hw hr hq hp
    | substring => exact substring_steady hw hr hq hp
    | regexReplace => exact regexReplace_steady hw hr hq hp
    | _ => cases hn

end Matching

end Utterance

import Utterance.Proofs.MatchingCalls

/-!
# Evaluation in matched worlds

Trees that differ in positions only evaluate to the same in matched worlds (`evaluate_meets`). For each kind of node
this follows from the same for its parts (`step_meets`). If only the second world has a list of its own, the node must
not use the name of that list (`Matching.Permits`).
-/

namespace Utterance

open List

variable {cases cases' : List Case} {conditions conditions' : List Node} {names names' : List Token}
  {t t' : Token}

theorem Operator.ofToken?_alike (h : t.Alike AnyPlace t') : ofToken? t = ofToken? t' := by
  obtain ⟨kind, value, _, _⟩ := t
  obtain ⟨kind', value', _, _⟩ := t'
  obtain rfl : kind = kind' := h.kind
  obtain rfl : value = value' := h.value
  rfl

namespace Matching

open Eval

section

variable {ev : Evaluator} [h : Moving ev]

theorem growing_of_assembled {α : Type} {frame : Frame} {x : Evaluator → Eval α}
    (hx : Assembled False false frame x) : Growing (x ev) :=
  growing_of_moves (hx.moves h.moves)

variable (frame : Frame)

instance (t : Table) (pairs : List (Node × Node)) : Growing (entries ev frame t pairs) :=
  growing_of_assembled (assembled_entries False.elim t)

instance (body : Node) (isBlock : Bool) : Growing (caseBody ev frame body isBlock) :=
  growing_of_assembled (assembled_caseBody False.elim isBlock)

instance (rest : Option (Node × Bool)) (cases : List Case) : Growing (conditional ev frame rest cases) :=
  growing_of_assembled (assembled_conditional False.elim False.elim)

instance (s : Ref) (rest : Option (Node × Bool)) (cases : List Case) : Growing (switch ev frame s rest cases) :=
  growing_of_assembled (assembled_switch s False.elim False.elim)

instance (body : Node) : Growing (loopBody ev frame body) :=
  growing_of_assembled (.loopBody False.elim)

instance (stride : Option Node) : Growing (strideOf ev frame stride) :=
  growing_of_assembled (assembled_strideOf False.elim)

instance (name : String) (last : Ref) (stride : Scalar) (body : Node) (first : Scalar) :
    Growing (count ev frame name last stride body first) :=
  growing_of_assembled (assembled_count name last stride False.elim first)

instance (name : String) (items : Ref) (body : Node) : Growing (each ev frame name items body) :=
  growing_of_assembled (assembled_each name items False.elim)

instance (conditions : List Node) : Growing (allTrue ev frame conditions) :=
  growing_of_assembled (assembled_allTrue False.elim)

instance (expression : Node) (clauses : List Clause) : Growing (comprehension ev frame expression clauses) :=
  growing_of_assembled (assembled_comprehension False.elim False.elim)

instance (name : String) (conditions : List Node) (items : Ref) (expression : Node) (clauses : List Clause) :
    Growing (collect ev frame name conditions items (comprehension ev frame expression clauses)) :=
  growing_of_assembled (assembled_collect name False.elim items (assembled_comprehension False.elim False.elim))

end

variable {M : Matching} {ev ev' : Evaluator} {frame frame' : Frame} {w w' : World} {r r' : Nat} {α β : Type}
  {R : Nat → α → β → Prop}

variable {C : World → Prop} {body body' : Node} {name name' : String} {rest rest' : Option (Node × Bool)}

private theorem names_of_option {t : Option Token} (h : ∀ x ∈ (t.map Token.text).toList, M.Asks x) :
    ∀ t' ∈ t, M.Asks t'.text := by
  intro t' ht
  rw [Option.mem_def] at ht
  exact h _ (by rw [ht]; exact mem_cons_self)

section

variable (hw : M.Worlds w w')
include hw

private theorem index_steady (hr : M.Twins w.size r r') {k k' : Nat} (hk : M.Twins w.size k k')
    (collection collection' key key' : Node) :
    M.Agree (index collection key r k frame) (index collection' key' r' k' frame') w w' := by
  refine .cell hw hr fun left left' hl => .cell hw hk fun right right' hc => ?_
  have hp := hl.payload
  have hp' := hc.payload
  generalize left.payload = p, left'.payload = p' at hp ⊢
  cases hp with
  | @list es es' hes =>
    generalize right.payload = q, right'.payload = q' at hp' ⊢
    cases hp' with
    | number i =>
      have hl : es.size = es'.size := hes.length_eq
      dsimp only
      rw [hl]
      split
      · exact .pure hw (arrayGetD_alike hes hw.null _)
      · exact .error hw _
    | _ => exact .error hw _
  | dict n => exact entry_steady hw hc.payload n
  | _ => exact .error hw _

private theorem unary_steady (hr : M.Twins w.size r r') {op op' : Token}
    (ho : op.Alike AnyPlace op') : M.Agree (unary op r) (unary op' r') w w' := by
  have hk : op.isKeyword "not" = op'.isKeyword "not" := by
    rw [Token.isKeyword, Token.isKeyword, ho.kind, ho.value]
  unfold unary
  rw [ho.kind, hk]
  split
  · exact negate_steady hw hr
  · split
    · exact negation_steady hw hr
    · exact .pure hw hr

theorem Meets.elementAt? {g : Option Ref → Eval α} {g' : Option Ref → Eval β} (hr : M.Twins w.size r r') (i : Nat)
    (h : ∀ e e', Option.Rel (M.Twins w.size) e e' → M.Meets C R (g e) (g' e') w w') :
    M.Meets C R (elementAt? r i >>= g) (elementAt? r' i >>= g') w w' := by
  unfold Eval.elementAt?
  rw [bind_assoc, bind_assoc]
  refine .payload hw hr fun p p' hp => ?_
  cases hp with
  | list hes => exact h _ _ (arrayGetElem?_alike hes i)
  | tuple hes => exact h _ _ (getElem?_alike hes i)
  | _ => exact h _ _ .none

theorem Meets.itemAt? {g : Option Binding → Eval α} {g' : Option Binding → Eval β} (hr : M.Twins w.size r r') (i : Nat)
    (h : ∀ b b', Option.Rel (Binding.Alike (M.Twins w.size)) b b' → M.Meets C R (g b) (g' b') w w') :
    M.Meets C R (itemAt? r i >>= g) (itemAt? r' i >>= g') w w' := by
  have value {e e' : Option Ref} (he : Option.Rel (M.Twins w.size) e e') :
      Option.Rel (Binding.Alike (M.Twins w.size)) (e.map .value) (e'.map .value) := by
    cases he with
    | none => exact .none
    | some he => exact .some (.value he)
  unfold Eval.itemAt?
  rw [bind_assoc, bind_assoc]
  refine .payload hw hr fun p p' hp => ?_
  cases hp with
  | list hes => exact h _ _ (value (arrayGetElem?_alike hes i))
  | tuple hes => exact h _ _ (value (getElem?_alike hes i))
  | set ms =>
    refine h _ _ ?_
    cases ms[i]? with
    | none => exact .none
    | some m => exact .some (.member m)
  | _ => exact h _ _ .none

private theorem rounds_meets {round round' : Eval Bool} [Keeps C round]
    (h : ∀ v v', M.Worlds v v' → M.Meets C Same round round' v v') :
    M.Meets C Same (rounds round) (rounds round') w w' := by
  refine .iterate (Q := fun _ _ _ => True) (fun _ _ v v' _ hv _ => ?_) hw trivial
  refine (h v v' hv).bind fun b b' u u' _ hu hb => .pure hu ?_
  obtain rfl : b = b' := hb
  cases b with
  | true => exact .inl trivial
  | false => exact .inr rfl

variable (hf : M.Frames frame frame')
include hf

private theorem copyTo_steady (hr : M.Twins w.size r r') (span span' : Span) :
    M.Agree (do let r ← copy r; let r ← place r span; frameIn r frame)
      (do let r ← copy r'; let r ← place r span'; frameIn r frame') w w' :=
  (copy_steady hw hr).bind fun _ _ _ _ _ hv hr => (place_steady hv hr span span').bind fun _ _ _ _ _ hu hr =>
    frameIn_steady hu hr hf

private theorem named_steady (hn : name = name') (ha : M.Asks name)
    (span span' : Span) : M.Agree (named span name frame) (named span' name' frame') w w' := by
  subst hn
  refine .lookup hw hf ha fun b b' hb => ?_
  cases hb with
  | none => exact .error hw _
  | some hb =>
    cases hb with
    | member m => exact .fault hw _
    | value hr =>
      refine .payload hw hr fun p p' hp => ?_
      cases hp with
      | function => exact place_steady hw hr span span'
      | list | dict | builtin =>
        exact (place_steady hw hr span span').bind fun _ _ _ _ _ hv hr => frameIn_steady hv hr hf
      | _ => exact copyTo_steady hw hf hr span span'

private theorem regexLiteral_steady (ht : t.Alike AnyPlace t') (span span' : Span) :
    M.Agree (regexLiteral span t frame) (regexLiteral span' t' frame') w w' := by
  unfold regexLiteral
  rw [ht.text_eq]
  split
  · exact make_steady hw hf (.regex _ _) span span'
  · exact .error hw _
  · exact .fault hw _

private theorem define_steady {params params' : List Token} (hp : Forall₂ (Token.Alike AnyPlace) params params')
    (hb : body.Alike AnyPlace body') (span span' : Span) (hn : name = name') :
    M.Agree (define span name params body frame) (define span' name' params' body' frame') w w' := by
  subst hn
  unfold define
  rw [Token.Alike.texts_eq hp]
  exact make_steady hw hf (.function name _ hb) span span'

private theorem bindName_steady {name name' : Option Token} (hn : Option.Rel (Token.Alike AnyPlace) name name')
    (hx : ∀ t ∈ name, M.Asks t.text) (hr : M.Twins w.size r r') :
    M.Steady Same (bindName frame name r) (bindName frame' name' r') w w' := by
  cases hn with
  | none => exact .pure hw rfl
  | @some t t' ht =>
    show M.Steady Same (bind frame t.text (.value r)) (bind frame' t'.text (.value r')) w w'
    rw [← ht.text_eq]
    exact bind_steady hw hf ((hx t rfl).binds frame) (.value hr)

private theorem shareNames_steady {s s' : Nat} (hs : M.scopes.pairs s s')
    (hn : Forall₂ (Token.Alike AnyPlace) names names') (hx : ∀ t ∈ names, M.Asks t.text) :
    M.Steady Same (shareNames frame s names) (shareNames frame' s' names') w w' := by
  induction hn generalizing w w' with
  | nil => exact .pure hw rfl
  | @cons t t' _ _ ht _ ih =>
    unfold shareNames
    rw [← ht.text_eq]
    refine .lookup hw hf (hx t mem_cons_self) fun b b' hb => ?_
    cases hb with
    | none => exact .error hw _
    | some _ =>
      have hshared : M.Steady Same (modifyScope s (·.addExport t.text)) (modifyScope s' (·.addExport t.text)) w w' :=
        modifyScope_steady hw hs (fun _ _ h => h.addExport t.text) fun _ _ _ _ => rfl
      refine hshared.bind fun _ _ _ _ _ hv _ => ?_
      exact (record_steady hv (by rfl)).bind fun _ _ _ _ _ hu _ => ih hu fun t ht => hx t (mem_cons_of_mem _ ht)

private theorem share_steady (hn : Forall₂ (Token.Alike AnyPlace) names names') (hx : ∀ t ∈ names, M.Asks t.text) :
    M.Agree (share names frame) (share names' frame') w w' := by
  have hscopes := hf.scopes
  unfold share
  generalize frame.scopes = scopes at hscopes ⊢
  generalize frame'.scopes = scopes' at hscopes ⊢
  cases hscopes with
  | nil => exact .pure hw hw.null
  | @cons s s' _ _ hs _ =>
    have hbegun : M.Steady Same (modifyScope s (·.beginSharing)) (modifyScope s' (·.beginSharing)) w w' :=
      modifyScope_steady hw hs (fun _ _ h => h.beginSharing) fun _ _ _ _ => rfl
    refine hbegun.bind fun _ _ v v' _ hv _ => (record_steady hv (by rfl)).bind fun _ _ _ _ _ hu _ => ?_
    exact (shareNames_steady hu hf hs hn hx).bind fun _ _ _ _ _ ht _ => .pure ht ht.null

end

abbrev Found (M : Matching) (n : Nat) (found found' : Array Ref) : Prop :=
  Forall₂ (M.Twins n) found.toList found'.toList

/-! ### Parts of a step -/

variable (h : EvaluatorMeets M ev ev') (hf : M.Frames frame frame') (hw : M.Worlds w w')
include h hf hw

private theorem assign_meets (ht : t.Alike AnyPlace t') (hx : M.Asks t.text) {value value' : Node}
    (hv : value.Alike AnyPlace value') :
    M.Meets M.Calm M.Twins (do let r ← ev value frame; bind frame t.text (.value r); return r)
      (do let r ← ev' value' frame'; bind frame' t'.text (.value r); return r) w w' := by
  rw [← ht.text_eq]
  exact (h hv hf hw).bind fun r r' v v' _ hv hr => (bind_steady hv hf (hx.binds frame) (.value hr)).bind
    fun _ _ _ _ hn hu _ =>
    .pure hu (hr.mono hn)

private theorem caseBody_meets (hb : body.Alike AnyPlace body') (isBlock : Bool) :
    M.Meets M.Calm M.Twins (caseBody ev frame body isBlock) (caseBody ev' frame' body' isBlock) w w' := by
  refine (h hb hf hw).bind fun r r' v v' _ hv hr => .pure hv ?_
  split
  · exact hv.null
  · exact hr

private theorem otherwise_meets (hr : Option.Rel (Node.BodyAlike AnyPlace) rest rest') :
    M.Meets M.Calm M.Twins (otherwise ev frame rest) (otherwise ev' frame' rest') w w' := by
  cases hr with
  | none => exact .pure hw hw.null
  | some hb =>
    cases hb with
    | mk isBlock hb => exact caseBody_meets h hf hw hb isBlock

theorem loopBody_meets (hb : body.Alike AnyPlace body') :
    M.Meets M.Calm Same (loopBody ev frame body) (loopBody ev' frame' body') w w' := by
  refine ((h hb hf hw).bind fun _ _ _ _ _ hv _ => .pure hv rfl).tryCatch (fun s => ?_) rfl (fun _ => rfl)
    fun s s' v v' _ hv hs => ?_
  · split <;> infer_instance
  · cases hs with
    | cut | skip => exact .pure hv rfl
    | error ht hd => exact .throw hv (.error ht hd)
    | give hr => exact .throw hv (.give hr)
    | _ => exact .throw hv (by constructor)

private theorem strideOf_meets {stride stride' : Option Node} (hs : Option.Rel (Node.Alike AnyPlace) stride stride') :
    M.Meets M.Calm Same (strideOf ev frame stride) (strideOf ev' frame' stride') w w' := by
  cases hs with
  | none => exact .pure hw rfl
  | some hs =>
    refine (h hs hf hw).bind fun r r' v v' _ hv hr => ?_
    rw [← bind_pure (scalar r), ← bind_pure (scalar r')]
    exact .scalar hv hr fun s => .pure hv rfl

variable [Moving ev]

theorem mapM_meets {nodes nodes' : List Node} (hn : Forall₂ (Node.Alike AnyPlace) nodes nodes') :
    M.Meets M.Calm (fun n => Forall₂ (M.Twins n)) (nodes.mapM (ev · frame)) (nodes'.mapM (ev' · frame')) w w' :=
  .mapM (R := M.Twins) (fun hn hr => hr.mono hn) hw hn fun _ _ _ _ hn _ hv => h hn hf hv

set_option synthInstance.maxSize 512 in
theorem application_meets {callee callee' : Node} {args args' : List Node} (hc : callee.Alike AnyPlace callee')
    (hargs : Forall₂ (Node.Alike AnyPlace) args args') (span span' : Span) :
    M.Meets M.Calm M.Twins (application ev span callee args frame)
    (application ev' span' callee' args' frame') w w' := by
  refine (h hc hf hw).bind fun f f' v v' _ hv hr => (copy_steady hv hr).bind fun _ _ _ _ _ hv hr => ?_
  refine (place_steady hv hr span span').bind fun f f' v v' _ hv hr => ?_
  refine (mapM_meets h hf hv hargs).bind fun rs rs' u u' hn hu hrs => ?_
  exact (call_meets h hu (hr.mono hn) hrs).bind fun _ _ _ _ _ ht hr => (copyTo_steady ht hf hr span span').meets

private theorem entries_meets {pairs pairs' : List (Node × Node)} (hp : Forall₂ (Node.PairAlike AnyPlace) pairs pairs')
    {t t' : Table} (ht : Table.Alike (M.Twins w.size) t t') :
    M.Meets M.Calm (fun n => Table.Alike (M.Twins n)) (entries ev frame t pairs)
    (entries ev' frame' t' pairs') w w' := by
  induction hp generalizing w w' t t' with
  | nil => exact .pure hw ht
  | cons hp _ ih =>
    obtain ⟨hk, hv⟩ := hp
    refine (h hk hf hw).andThen
      (fun key => .bind inferInstance fun value => .bind inferInstance fun p => by split <;> infer_instance) ?_
    intro key key' v v' hn hv' hkey
    refine (h hv hf hv').andThen (fun value => .bind inferInstance fun p => by split <;> infer_instance) ?_
    intro value value' u u' hm hu hvalue
    refine .payload hu (hkey.mono hm) fun p p' hp => ?_
    have ht' := ht.mono fun _ _ hr => hr.mono (Nat.le_trans hn hm)
    cases hp with
    | number s | string s => exact ih hu (ht'.set s hvalue)
    | _ => exact .error hu _

section

variable (hc : Forall₂ (Node.CaseAlike AnyPlace) cases cases')
  (hr : Option.Rel (Node.BodyAlike AnyPlace) rest rest')
include hc hr

private theorem conditional_meets :
    M.Meets M.Calm M.Twins (conditional ev frame rest cases) (conditional ev' frame' rest' cases') w w' := by
  induction hc generalizing w w' with
  | nil => exact otherwise_meets h hf hw hr
  | cons hc _ ih =>
    obtain ⟨isBlock, hcondition, hbody⟩ := hc
    refine (h hcondition hf hw).bind fun c c' v v' _ hv hc => .isTrue hv hc fun b => ?_
    cases b with
    | true => exact caseBody_meets h hf hv hbody isBlock
    | false => exact ih hv

private theorem switch_meets {s s' : Nat} (hs : M.Twins w.size s s') :
    M.Meets M.Calm M.Twins (switch ev frame s rest cases) (switch ev' frame' s' rest' cases') w w' := by
  induction hc generalizing w w' with
  | nil => exact otherwise_meets h hf hw hr
  | cons hc _ ih =>
    obtain ⟨isBlock, hvalue, hbody⟩ := hc
    refine (h hvalue hf hw).andThen (fun value => ?_) fun value value' v v' hn hv hval => ?_
    · exact .bind inferInstance fun t => by split <;> infer_instance
    · refine (equality?_steady hv (hs.mono hn) hval).meets.andThen (fun t => by split <;> infer_instance)
        fun t t' u u' hn' hu ht => ?_
      cases ht with
      | none => exact .fault hu _
      | some ht =>
        refine .isTrue hu ht fun b => ?_
        cases b with
        | true => exact caseBody_meets h hf hu hbody isBlock
        | false => exact ih hu (hs.mono (Nat.le_trans hn hn'))

end

private theorem count_meets (hb : body.Alike AnyPlace body') (hn : name = name') (hx : M.Binds frame name)
    {last last' : Nat}
    (hl : M.Twins w.size last last') (stride first : Scalar) :
    M.Meets M.Calm Same (count ev frame name last stride body first) (count ev' frame' name' last' stride body' first)
      w w' := by
  subst hn
  have keeps (i : Scalar) : Keeps M.Calm (countRound ev frame name last stride body i) :=
    .bind inferInstance fun _ => .bind inferInstance fun _ => by split <;> infer_instance
  refine .iterate (Q := Same) (fun i j v v' hn hv hij => ?_) hw rfl
  obtain rfl : i = j := hij
  refine .scalar hv (hl.mono hn) fun s => .lift hv _ fun b => ?_
  split
  · refine (fresh_steady hv (.number i)).bind fun r r' u u' _ hu hr => ?_
    refine (bind_steady hu hf hx (.value hr)).bind fun _ _ t t' _ ht _ => .lift ht _ fun next => ?_
    refine (loopBody_meets h hf ht hb).bind fun b b' s s' _ hs hbb => .pure hs ?_
    obtain rfl : b = b' := hbb
    cases b with
    | true => exact .inl rfl
    | false => exact .inr rfl
  · exact .pure hv (.inr rfl)

private theorem each_meets (hb : body.Alike AnyPlace body') (hn : name = name') (hx : M.Binds frame name)
    (hr : M.Twins w.size r r') :
    M.Meets M.Calm Same (each ev frame name r body) (each ev' frame' name' r' body') w w' := by
  subst hn
  have keeps (i : Nat) : Keeps M.Calm (eachRound ev frame name r body i) := by
    refine .bind (.bind inferInstance fun p => ?_) fun e => ?_
    · split <;> infer_instance
    · split <;> infer_instance
  refine .iterate (Q := Same) (fun i j v v' hn hv hij => ?_) hw rfl
  obtain rfl : i = j := hij
  refine .elementAt? hv (hr.mono hn) i fun e e' he => ?_
  cases he with
  | none => exact .pure hv (.inr rfl)
  | some he =>
    refine (bind_steady hv hf hx (.value he)).bind fun _ _ u u' _ hu _ => ?_
    refine (loopBody_meets h hf hu hb).bind fun b b' s s' _ hs hbb => .pure hs ?_
    obtain rfl : b = b' := hbb
    cases b with
    | true => exact .inl rfl
    | false => exact .inr rfl

private theorem allTrue_meets (hc : Forall₂ (Node.Alike AnyPlace) conditions conditions') :
    M.Meets M.Calm Same (allTrue ev frame conditions) (allTrue ev' frame' conditions') w w' := by
  induction hc generalizing w w' with
  | nil => exact .pure hw rfl
  | cons hc _ ih =>
    refine (h hc hf hw).bind fun c c' v v' _ hv hc => .isTrue hv hc fun b => ?_
    cases b with
    | true => exact ih hv
    | false => exact .pure hv rfl

private theorem collect_meets (hc : Forall₂ (Node.Alike AnyPlace) conditions conditions') (hx : M.Binds frame name)
    (hr : M.Twins w.size r r') {rest rest' : Eval (Array Ref)} [Growing rest]
    (hrest : ∀ v v', M.Worlds v v' → M.Meets M.Calm (Found M) rest rest' v v') :
    M.Meets M.Calm (Found M) (collect ev frame name conditions r rest) (collect ev' frame' name conditions' r' rest')
      w w' := by
  have keeps (state : Nat × Array Ref) : Keeps M.Calm (collectRound ev frame name conditions r rest state) := by
    refine .bind (.bind inferInstance fun p => ?_) fun b => ?_
    · split <;> infer_instance
    · split
      · infer_instance
      · exact .bind inferInstance fun _ => .bind (.bind inferInstance fun _ => inferInstance) inferInstance
  refine .iterate (Q := fun n s s' => s.1 = s'.1 ∧ Found M n s.2 s'.2) ?_ hw ⟨rfl, .nil⟩
  rintro ⟨i, found⟩ ⟨i', found'⟩ v v' hn hv ⟨rfl, hfound⟩
  refine .itemAt? hv (hr.mono hn) i fun b b' hb => ?_
  cases hb with
  | none => exact .pure hv (.inr hfound)
  | some hb =>
    refine (bind_steady hv hf hx hb).bind fun _ _ u u' hm hu _ => ?_
    have hmore : M.Meets M.Calm (Found M) (foundIf (allTrue ev frame conditions) rest)
        (foundIf (allTrue ev' frame' conditions') rest') u u' := by
      refine (allTrue_meets h hf hu hc).bind fun b b' t t' _ ht hbb => ?_
      obtain rfl : b = b' := hbb
      cases b with
      | true => exact hrest t t' ht
      | false => exact .pure ht .nil
    refine hmore.bind fun more more' t t' hi ht hmore => .pure ht (.inl ⟨rfl, ?_⟩)
    rw [Found, Array.toList_append, Array.toList_append]
    exact rel_append (hfound.imp fun _ _ hr => hr.mono (Nat.le_trans hm hi)) hmore

private theorem comprehension_meets {expression expression' : Node} (he : expression.Alike AnyPlace expression')
    {clauses clauses' : List Clause}
    (hc : Forall₂ (Node.ClauseAlike AnyPlace) clauses clauses') (hx : ∀ name, M.Binds frame name) :
    M.Meets M.Calm (Found M) (comprehension ev frame expression clauses)
      (comprehension ev' frame' expression' clauses') w w' := by
  induction hc generalizing w w' with
  | nil => exact (h he hf hw).bind fun _ _ _ _ _ hv hr => .pure hv (.cons hr .nil)
  | cons hc _ ih =>
    obtain ⟨ht, hi, hconds⟩ := hc
    refine (h hi hf hw).andThen (fun items => .bind inferInstance fun p => ?_) fun items items' v v' _ hv hr => ?_
    · split <;> infer_instance
    · refine .payload hv hr fun p p' hp => ?_
      have hcollect (name : String) := collect_meets h hf hv hconds (hx name) hr fun _ _ hu => ih hu
      rw [← ht.text_eq]
      cases hp with
      | list | tuple | set => exact hcollect _
      | _ => exact .error hv _

private theorem attempt_meets {handler handler' : Node} (hb : body.Alike AnyPlace body')
    (hh : handler.Alike AnyPlace handler')
    {name name' : Option Token} (hn : Option.Rel (Token.Alike AnyPlace) name name') (hx : ∀ t ∈ name, M.Asks t.text)
    (span span' : Span) :
    M.Meets M.Calm M.Twins (attempt ev span body handler name frame) (attempt ev' span' body' handler' name' frame')
      w w' := by
  refine (h hb hf hw).tryCatch (fun s => ?_) rfl (fun _ => rfl) fun s s' v v' _ hv hs => ?_
  · split <;> infer_instance
  · cases hs with
    | error ht hd =>
      dsimp only
      rw [ht, hd]
      refine (make_steady hv hf (.error _ _) span span').bind fun r r' u u' _ hu hr => ?_
      exact (bindName_steady hu hf hn hx hr).bind fun _ _ t t' _ ht _ => h hh hf ht
    | give hr => exact .throw hv (.give hr)
    | _ => exact .throw hv (by constructor)

end Matching

/-! ### Steps -/

/-- The names that a node itself asks for or binds in the scope where it stands. -/
def Node.ownNames : Node → List String
  | .named _ t | .assign _ t _ | .constant _ t _ | .count _ t .. | .each _ t .. => [t.text]
  | .function _ t .. | .attempt _ _ _ t => (t.map Token.text).toList
  | .share _ names => names.map Token.text
  | _ => []

def Node.isBring : Node → Bool
  | .bring .. => true
  | _ => false

namespace Matching

open Eval

variable {M : Matching} {ev ev' : Evaluator} {frame frame' : Frame} {w w' : World}

/-- A node does not use the name that only the second world has. -/
structure Permits (M : Matching) (node : Node) (frame : Frame) : Prop where
  names : ∀ x ∈ node.ownNames, M.Asks x
  brings : node.isBring = true → ∀ a ∈ M.apart, frame.scopes.head? ≠ some a.scope

/-- Nodes that differ in positions only do the same if their parts do. -/
theorem step_meets (h : EvaluatorMeets M ev ev') [Moving ev] {node node' : Node} (hn : node.Alike AnyPlace node')
    (hp : M.Permits node frame) (hf : M.Frames frame frame') (hw : M.Worlds w w') :
    M.Meets M.Calm M.Twins (step ev node frame) (step ev' node' frame') w w' := by
  cases hn with
  | @number s s' t t' _ ht =>
    have hp : (Payload.number t.value).Alike (M.Twins w.size) (.number t'.value) := ht.value ▸ .number _
    exact (make_steady hw hf hp s s').meets
  | @string s s' t t' _ ht =>
    have hp : (Payload.string t.value).Alike (M.Twins w.size) (.string t'.value) := ht.value ▸ .string _
    exact (make_steady hw hf hp s s').meets
  | @regex s s' t t' _ ht => exact (regexLiteral_steady hw hf ht s s').meets
  | @list s s' es es' _ hes =>
    exact (mapM_meets h hf hw hes).bind fun _ _ _ _ _ hv hrs => (make_steady hv hf (.list hrs) s s').meets
  | @comprehension s s' e e' cs cs' _ he hcs =>
    refine (newScope_steady hw).bind fun i i' v v' _ hv hi => ?_
    exact (comprehension_meets h (hi.frames hf hf.names) hv he hcs (hi.binds rfl)).bind fun _ _ _ _ _ hu hes =>
      (make_steady hu hf (.list hes) s s').meets
  | @tuple s s' es es' _ hes =>
    exact (mapM_meets h hf hw hes).bind fun _ _ _ _ _ hv hrs => (make_steady hv hf (.tuple hrs) s s').meets
  | @set s s' es es' _ hes =>
    exact (mapM_meets h hf hw hes).bind fun _ _ _ _ _ hv hrs => .store hv fun _ _ hs =>
      .ofPrinting hv (hs.membersOf hrs) fun _ => (make_steady hv hf (.set _) s s').meets
  | @dict s s' ps ps' _ hps =>
    refine (entries_meets h hf hw hps .nil).bind fun t t' v v' _ hv ht => (newTable_steady hv ht).bind ?_
    intro n n' u u' _ hu hn
    obtain rfl : n = n' := hn
    exact (make_steady hu hf (.dict n) s s').meets
  | @named s s' t t' _ ht => exact (named_steady hw hf ht.text_eq (hp.names _ mem_cons_self) s s').meets
  | assign _ ht hv => exact assign_meets h hf hw ht (hp.names _ mem_cons_self) hv
  | constant _ ht hv => exact assign_meets h hf hw ht (hp.names _ mem_cons_self) hv
  | @binary s s' l l' o o' q q' _ hl ho hr =>
    refine (h hl hf hw).andThen (fun a => .bind inferInstance fun b => by split <;> infer_instance)
      fun a a' v v' _ hv ha => ?_
    refine (h hr hf hv).andThen (fun b => by split <;> infer_instance) fun b b' u u' hm hu hb => ?_
    rw [Operator.ofToken?_alike ho]
    split
    · exact (binary_steady hu (ha.mono hm) hb _).bind fun _ _ _ _ _ ht hr => (place_steady ht hr s s').meets
    · exact .pure hu hu.null
  | @unary s s' o o' v v' _ ho hv =>
    exact (h hv hf hw).bind fun _ _ _ _ _ hv hr => (unary_steady hv hr ho).bind fun _ _ _ _ _ hu hr =>
      (place_steady hu hr s s').meets
  | @apply s s' _ _ _ _ _ hc hargs => exact application_meets h hf hw hc hargs s s'
  | index _ hc hk =>
    exact (h hc hf hw).bind fun _ _ _ _ _ hv hc => (h hk hf hv).bind fun _ _ _ _ hm hu hk =>
      (index_steady hu (hc.mono hm) hk _ _ _ _).meets
  | conditional _ hcs ho => exact conditional_meets h hf hw hcs ho
  | switch _ hv hcs ho => exact (h hv hf hw).bind fun _ _ _ _ _ hv hs => switch_meets h hf hv hcs ho hs
  | count _ ht hfirst hlast hstride hb =>
    refine (h hfirst hf hw).bind fun a a' v₁ v₁' _ hv₁ ha => (h hlast hf hv₁).bind fun b b' v₂ v₂' h₂ hv₂ hlast => ?_
    refine (strideOf_meets h hf hv₂ hstride).bind fun s s' v₃ v₃' h₃ hv₃ hs => ?_
    obtain rfl : s = s' := hs
    refine .scalar hv₃ (ha.mono (Nat.le_trans h₂ h₃)) fun i => ?_
    have hx := (hp.names _ mem_cons_self).binds frame
    exact (count_meets h hf hv₃ hb ht.text_eq hx (hlast.mono h₃) s i).bind fun _ _ _ _ _ hu _ => .pure hu hu.null
  | each _ ht hi hb =>
    refine (h hi hf hw).andThen (fun r => .bind inferInstance fun p => ?_) fun r r' v v' _ hv hr => ?_
    · split <;> infer_instance
    · refine .payload hv hr fun p p' hp => ?_
      cases hp with
      | list | tuple =>
        have hx := (hp.names _ mem_cons_self).binds frame
        exact (each_meets h hf hv hb ht.text_eq hx hr).bind fun _ _ _ _ _ hu _ => .pure hu hu.null
      | _ => exact .error hv _
  | loop _ hc hb =>
    refine Meets.bind (rounds_meets hw fun v v' hv => ?_) fun _ _ _ _ _ hu _ => .pure hu hu.null
    refine (h hc hf hv).bind fun _ _ u u' _ hu hc => .isTrue hu hc fun b => ?_
    cases b with
    | true => exact loopBody_meets h hf hu hb
    | false => exact .pure hu rfl
  | repetition _ hb hc =>
    refine Meets.bind (rounds_meets hw fun v v' hv => ?_) fun _ _ _ _ _ hu _ => .pure hu hu.null
    refine (loopBody_meets h hf hv hb).bind fun b b' u u' _ hu hbb => ?_
    obtain rfl : b = b' := hbb
    cases b with
    | true =>
      refine (h hc hf hu).bind fun q q' t t' _ ht hq => ?_
      rw [← bind_pure (isTrue q), ← bind_pure (isTrue q')]
      exact .isTrue ht hq fun _ => .pure ht rfl
    | false => exact .pure hu rfl
  | @function s s' t t' ps ps' b b' _ ht hps hb =>
    have hname : (t.map Token.text).getD "<anonymous>" = (t'.map Token.text).getD "<anonymous>" := by
      cases ht with
      | none => rfl
      | some ht => exact ht.text_eq
    exact (define_steady hw hf hps hb s s' hname).bind fun _ _ _ _ _ hv hr =>
      (bindName_steady hv hf ht (names_of_option hp.names) hr).bind
      fun _ _ _ _ hm hu _ => .pure hu (hr.mono hm)
  | @lambda s s' _ _ _ _ _ hps hb => exact (define_steady hw hf hps hb s s' rfl).meets
  | give _ hv =>
    cases hv with
    | none => exact .throw hw (.give hw.null)
    | some hv => exact (h hv hf hw).bind fun _ _ _ _ _ hv hr => .throw hv (.give hr)
  | cut => exact .throw hw .cut
  | skip => exact .throw hw .skip
  | @attempt s s' _ _ _ _ _ _ _ hb hh hn => exact attempt_meets h hf hw hb hh hn (names_of_option hp.names) s s'
  | @bring s s' t t' is is' _ ht hi =>
    exact bring_meets h hf hw (fun _ a ha he => absurd he (hp.brings rfl a ha)) ht hi s s'
  | share _ hts => exact (share_steady hw hf hts fun t ht => hp.names _ (mem_map_of_mem ht)).meets

/-- Trees that differ in positions only evaluate to the same in matched worlds, if the second one has nothing of its
own. -/
theorem evaluate_meets (hM : M.apart = none) : EvaluatorMeets M evaluate evaluate := by
  intro node node' frame frame' w w' hn hf hw he hc
  have permits (node : Node) (frame : Frame) : M.Permits node frame := by
    refine ⟨fun _ _ a ha => ?_, fun _ a ha => ?_⟩ <;> (rw [hM] at ha; cases ha)
  -- By induction on evaluation, along with what it can change: a round needs of its parts that their logs grow.
  have key := evaluate_induction (P := fun node frame w r => Reaches frame w (after r) ∧
    ∀ node' frame' w', node.Alike AnyPlace node' → M.Frames frame frame' → M.Worlds w w' → M.Calm (after r) →
      M.Outcomes w.size M.Twins r (evaluate node' frame' w')) ?_ node frame w he
  · exact key.2 node' frame' w' hn hf hw hc
  · intro ev ih node frame w hs
    have moving : Moving ev := ⟨fun node frame w he => (ih node frame w he).1⟩
    have meets : EvaluatorMeets M ev evaluate := fun hn hf hw he hc => (ih _ _ _ he).2 _ _ _ hn hf hw hc
    refine ⟨step_moves moving.moves node frame w hs, fun node' frame' w' hn hf hw hc => ?_⟩
    have ho := step_meets meets hn (permits node frame) hf hw hs hc
    rcases ho.ends_or with hends | hlost
    · rw [evaluate_eq hends]
      exact ho
    · exact hlost _

end Matching

end Utterance

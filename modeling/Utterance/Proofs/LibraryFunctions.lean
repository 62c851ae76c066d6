import Utterance.Proofs.Procedures

/-!
# Functions of the library

The text of a module says what its functions are, whichever file the module is in (`Library.Defined.fits`). So a call
of such a function comes to what its code gives back (`Library.Defined.computes`).
-/

namespace Utterance

open Eval List World Token

variable {bs : List Builtin} {code : Script} {name text : String} {params : List String}

variable {w v u : World} {frame : Frame} {d : Datum} {ds : List Datum} {rs : List Ref} {known : List (String × Meaning)}

namespace Library

/-- The text of a module, in a file, defines a function. -/
def Defines (text name : String) (params : List String) (body : Node) : Prop :=
  ∃ path lexemes span nodes s t ps, scan ⟨path, text⟩ = .ok lexemes ∧
    Grammar.parse lexemes = .ok (.list span nodes) ∧ .function s (some t) ps body ∈ nodes ∧
    t.text = name ∧ ps.map Token.text = params

def statements (cs : List Char) : List Node :=
  match scanRest none ⟨.start ⟨"", String.ofList cs⟩, cs⟩ with
  | .ok lexemes =>
    match Grammar.parse lexemes with
    | .ok (.list _ nodes) => nodes
    | _ => []
  | _ => []

/-- What a statement defines under a name: the parameters of a function, and whether the function has some code. -/
def defined? (name : String) (code : Script) : Node → Option (List String × Bool)
  | .function _ (some t) ps body => if t.text = name then some (ps.map Token.text, code.fits body) else none
  | _ => none

theorem defined?_alike (name : String) (code : Script) {n n' : Node} (h : n.Alike AnyPlace n') :
    defined? name code n = defined? name code n' := by
  cases h with
  | function _ ht hps hbody =>
    cases ht with
    | none => rfl
    | some ht => simp only [defined?, ht.text_eq, code.fits_alike hbody, Token.Alike.texts_eq hps]
  | _ => rfl

/-- Statements define a name once, with parameters and code. -/
abbrev DefinedIn (nodes : List Node) (name : String) (params : List String) (code : Script) : Prop :=
  nodes.filterMap (defined? name code) = [(params, true)]

/-- The text of a module defines a name once. -/
structure Defined (text name : String) (params : List String) (code : Script) : Prop where
  once : ∃ cs, text = String.ofList cs ∧ DefinedIn (statements cs) name params code

namespace Defined

variable {body : Node}

/-- It is enough to read a text once: a function does not depend on the file of its module. -/
theorem fits (h : Defined text name params code) {ps : List String} (hd : Defines text name ps body) :
    ps = params ∧ code.fits body = true := by
  obtain ⟨cs, rfl, hcode⟩ := h.once
  obtain ⟨path, lexemes, span, nodes, s, t, ts, hscan, hparse, hmem, rfl, rfl⟩ := hd
  let source : Source := ⟨"", String.ofList cs⟩
  have hcursor : (Cursor.start ⟨path, String.ofList cs⟩).shift (shiftInto source) = ⟨.start source, cs⟩ := by
    simp [Cursor.start, Cursor.shift, Position.shift, Position.start, shiftInto, source]
  obtain ⟨init, e, rfl, he, hinit⟩ := scanRest_ends ((scan_eq _).symm.trans hscan)
  have hshifted := scanRest_shift (shiftInto source) (Cursor.start ⟨path, String.ofList cs⟩) .none
  rw [hcursor, ← scan_eq, hscan, shiftScan, map_append] at hshifted
  have halike : Forall₂ Lexeme.Alike init (init.map (Lexeme.shift (shiftInto source))) :=
    List.forall₂_map_right_iff.2 (List.forall₂_same.2 fun x _ => Lexeme.alike_shift _ x)
  obtain ⟨_, span', ns, ns', hns, hparse', hall⟩ :=
    Grammar.parse_alike he (show (e.shift (shiftInto source)).kind = .eof from he) hinit halike hparse
  cases hns
  have hstatements : statements cs = ns' := by
    unfold statements
    rw [hshifted, map_singleton]
    dsimp only [Lexeme.shift]
    rw [hparse']
  have hsame : ∀ {ns ns'}, Forall₂ (Node.Alike AnyPlace) ns ns' →
      ns.filterMap (defined? t.text code) = ns'.filterMap (defined? t.text code) := by
    intro ns ns' h
    induction h with
    | nil => rfl
    | cons hn _ ih => rw [filterMap_cons, filterMap_cons, defined?_alike _ _ hn, ih]
  have hdefined : (ts.map Token.text, code.fits body) ∈ nodes.filterMap (defined? t.text code) :=
    mem_filterMap.2 ⟨_, hmem, if_pos rfl⟩
  rw [hsame hall, ← hstatements, hcode, mem_singleton] at hdefined
  exact Prod.mk.inj hdefined

theorem exists_body (h : Defined text name params code) : ∃ body, Defines text name params body := by
  obtain ⟨cs, rfl, hcode⟩ := h.once
  obtain ⟨n, hn, hd⟩ := mem_filterMap.1 (hcode ▸ mem_singleton_self (params, true))
  unfold defined? at hd
  split at hd
  · next s t ps body =>
    split at hd
    · next ht =>
      obtain ⟨hps, -⟩ := Prod.mk.inj (Option.some.inj hd)
      unfold statements at hn
      split at hn
      · next lexemes hscan =>
        split at hn
        · next span nodes hparse =>
          have hstart : Cursor.start ⟨"", String.ofList cs⟩ = ⟨.start ⟨"", String.ofList cs⟩, cs⟩ := by
            simp [Cursor.start]
          rw [← hstart, ← scan_eq] at hscan
          exact ⟨body, "", lexemes, span, nodes, s, t, ps, hscan, hparse, hn, ht, hps⟩
        · cases hn
      · cases hn
    · cases hd
  · cases hd

end Defined

end Library

/-- A value is a function of a module, and in the frame that is kept with it some names have a meaning. -/
structure LibraryFunction (w : World) (f : Ref) (text name : String) (known : List (String × Meaning)) : Prop where
  definition : ∃ params body, Library.Defines text name params body ∧
    (w.cell f).payload = .function name params body
  knows : ∃ frame, (w.cell f).frame = some frame ∧ Knows w frame known

/-- Such a function arises where the statement of the module that defines it is evaluated, and has its name there. -/
theorem LibraryFunction.of_statement {n : Nat} {outer : List Nat} {t : Token} {ps : List Token} {body : Node}
    (hd : Library.Defines text t.text (ps.map Token.text) body) (hk : Knows w frame known)
    (hs : frame.scopes = n :: outer) (hname : known.lookup t.text = none) (span : Span) :
    ∃ f v, evaluate (.function span (some t) ps body) frame w = .ok f v ∧
      v.store.lookup frame t.text = some (.value f) ∧ LibraryFunction v f text t.text known := by
  let c : Cell := ⟨.function t.text (ps.map Token.text) body, some span.start, some span.stop, some frame⟩
  let v := (w.alloc c).modifyScope n (·.set t.text (some (.value w.size)))
  have hmade : Knows (w.alloc c) frame known := hk.adds (.alloc w c)
  have hbind : Eval.bind frame t.text (.value w.size) (w.alloc c) = .ok () v := by
    unfold Eval.bind
    rw [hs]
    rfl
  have hcell : v.store.cell w.size = c := w.cell_alloc_size c
  refine ⟨w.size, v, evaluate_ok (bind_ok hbind), ?_, ⟨_, body, hd, by rw [World.cell, hcell]⟩,
    frame, by rw [World.cell, hcell], hmade.bind hs fun {x m} hm => ?_⟩
  · exact (Knows.lookup_bound hmade.scopes hs _ _ _).trans (if_pos rfl)
  · by_cases hx : x = t.text
    · rw [hx, hname] at hm
      cases hm
    · rwa [if_neg hx]

/-- A node calls a function with values: its parts evaluate to them, from the world `w` on, and then the world is
`v`. -/
inductive Calls (frame : Frame) (f : Ref) (rs : List Ref) : Node → World → World → Prop
  | apply {span callee args w u v} : (do place (← copy (← evaluate callee frame)) span) w = .ok f u →
    args.mapM (evaluate · frame) u = .ok rs v → Calls frame f rs (.apply span callee args) w v

def Meaning.builtins (bs : List Builtin) : List (String × Meaning) := bs.map fun b => (b.name, .builtin b)

/-- Where built-in functions have their names, every call of a function of a module with some data makes a new value
that is a datum, and all other values hold what they held. -/
structure Library.Computes (text name : String) (bs : List Builtin) (ds : List Datum) (d : Datum) : Prop where
  creates : ∀ {v f frame node w rs}, LibraryFunction v f text name (Meaning.builtins bs) → Calls frame f rs node w v →
    DenoteAll v.store ds rs → Creates v d (evaluate node frame w)

/-- A call of a function of a module with some data has ended, with a datum. -/
structure Library.Gave (text name : String) (bs : List Builtin) (ds : List Datum) (d : Datum) : Prop where
  call : ∃ v f frame node w rs r u, LibraryFunction v f text name (Meaning.builtins bs) ∧ Calls frame f rs node w v ∧
    DenoteAll v.store ds rs ∧ evaluate node frame w = .ok r u ∧ Denotes u.store d r

/-- What a call has given is what every call gives. -/
theorem Library.Computes.denotes {e : Datum}
    (h : Library.Computes text name bs ds d) (hg : Library.Gave text name bs ds e) :
    ∃ s r, Denotes s d r ∧ Denotes s e r := by
  obtain ⟨v, f, frame, node, w, rs, r, u, hf, hcall, hrs, hr, he⟩ := hg.call
  obtain ⟨r', u', hr', -, -, hd⟩ := h.creates hf hcall hrs
  rw [hr] at hr'
  cases hr'
  exact ⟨u.store, r, hd, he⟩

/-- A function computes what its code gives back. -/
theorem Library.Defined.computes {ss : List Script}
    (h : Library.Defined text name params (.block ss)) (hl : params.length = ds.length)
    (hdoes : Script.Does ⟨(params.zip (ds.map .datum)).reverse ++ Meaning.builtins bs, none⟩ ss (.gives d)) :
    Library.Computes text name bs ds d := by
  refine ⟨fun {v f frame node w rs} hf hcall hrs => ?_⟩
  obtain ⟨ps, body, hdefines, hp⟩ := hf.definition
  obtain ⟨outer, houter, hk⟩ := hf.knows
  obtain ⟨rfl, hfits⟩ := h.fits hdefines
  obtain ⟨x, u, hx, hu, hd⟩ := hk.call hp houter hrs hl hfits hdoes
  cases hcall with
  | apply hf hargs =>
    obtain ⟨new, hnew, hnode⟩ := (Applies.evaluate_apply hf hargs).1 hx
    exact ⟨_, _, hnode, hu.cells, hu.alloc new, hd.copied hnew⟩

/-- Values are added to a world, and nothing else happens to them or to its scopes. -/
structure Enlarges (w v : World) : Prop where
  store : w.store.Extends v.store
  scopes : v.store.scopes = w.store.scopes

namespace Enlarges

theorem trans (h : Enlarges w v) (h' : Enlarges v u) : Enlarges w u :=
  ⟨h.store.trans h'.store, h'.scopes.trans h.scopes⟩

theorem alloc (w : World) (c : Cell) : Enlarges w (w.alloc c) := ⟨.alloc w c, rfl⟩

theorem adds (h : Enlarges w v) : Adds w v where
  keeps := h.store.keeps
  seen hr hf := by rwa [World.cell, h.store.cell _ hr]
  scopes := Nat.le_of_eq (congrArg Array.size h.scopes.symm)
  scope _ := by rw [World.scope, Store.scope, h.scopes]; rfl

end Enlarges

/-- A datum can be written: some node evaluates to it, wherever it stands. -/
def Written (d : Datum) : Prop := ∃ node, ∀ frame w, ∃ r u,
  evaluate node frame w = .ok r u ∧ Enlarges w u ∧ Denotes u.store d r

theorem written_int (n : Int) : Written (.int n) := by
  refine ⟨.number default ⟨.int, .int n, default, default⟩, fun frame w => ?_⟩
  let c : Cell := ⟨.number (.int n), some default, some default, some frame⟩
  exact ⟨_, w.alloc c, evaluate_ok rfl, .alloc w c, lt_alloc_size w c, by rw [cell_alloc_size]⟩

theorem written_text (s : String) : Written (.text s) := by
  refine ⟨.string default ⟨.string, .text s, default, default⟩, fun frame w => ?_⟩
  let c : Cell := ⟨.string (.text s), some default, some default, some frame⟩
  exact ⟨_, w.alloc c, evaluate_ok rfl, .alloc w c, lt_alloc_size w c, by rw [cell_alloc_size]⟩

theorem written_all (h : ∀ d ∈ ds, Written d) : ∃ nodes : List Node, ∀ frame w, ∃ rs u,
    nodes.mapM (evaluate · frame) w = .ok rs u ∧ Enlarges w u ∧ DenoteAll u.store ds rs := by
  induction ds with
  | nil => exact ⟨[], fun _ w => ⟨[], w, rfl, ⟨.refl _, rfl⟩, rfl⟩⟩
  | cons d ds ih =>
    obtain ⟨node, hnode⟩ := h d mem_cons_self
    obtain ⟨nodes, hnodes⟩ := ih fun e he => h e (mem_cons_of_mem _ he)
    refine ⟨node :: nodes, fun frame w => ?_⟩
    obtain ⟨r, v, hr, hv, hd⟩ := hnode frame w
    obtain ⟨rs, u, hrs, hu, hds⟩ := hnodes frame v
    exact ⟨r :: rs, u, mapM_cons_ok hr hrs, hv.trans hu, r, rs, rfl, hd.kept hu.store.keeps, hds⟩

theorem written_list (h : ∀ d ∈ ds, Written d) : Written (.list ds) := by
  obtain ⟨nodes, hnodes⟩ := written_all h
  refine ⟨.list default nodes, fun frame w => ?_⟩
  obtain ⟨rs, u, hrs, hu, hds⟩ := hnodes frame w
  let c : Cell := ⟨.list rs.toArray, some default, some default, some frame⟩
  have hstep : step evaluate (.list default nodes) frame w = .ok u.size (u.alloc c) := bind_ok hrs
  refine ⟨_, _, evaluate_ok hstep, hu.trans (.alloc u c), lt_alloc_size u c, rs.toArray, ?_, hds.kept (.of_alloc u c)⟩
  rw [cell_alloc_size]

theorem exists_knows (bs : List Builtin) : ∃ w, Knows w (programFrame "main") (Meaning.builtins bs) := by
  induction bs with
  | nil =>
    refine ⟨.small [] [], fun n hn => ?_, fun hm => nomatch hm⟩
    obtain rfl := mem_singleton.1 hn
    exact Nat.zero_lt_one
  | cons b bs ih =>
    obtain ⟨w, hw⟩ := ih
    have hb : Meaning.Of (w.alloc (.fresh (.builtin b))).store w.size (.builtin b) := by
      rw [Meaning.Of, cell_alloc_size]
      rfl
    exact ⟨_, (hw.adds (.alloc w _)).bindFirst rfl hb b.name⟩

/-- A function of a module can be called with data that can be written. -/
theorem Library.Defined.exists_call
    (h : Library.Defined text name params code) (bs : List Builtin) (hds : ∀ d ∈ ds, Written d) :
    ∃ frame node w v f rs, Calls frame f rs node w v ∧ LibraryFunction v f text name (Meaning.builtins bs) ∧
      DenoteAll v.store ds rs := by
  obtain ⟨body, hbody⟩ := h.exists_body
  obtain ⟨start, hstart⟩ := exists_knows bs
  -- the name of the function is bound in a scope that the function does not see
  let main := programFrame "main"
  let made := start.alloc ⟨.function name params body, none, none, some main⟩
  let q := start.size
  let n := made.scopeCount
  let w := made.newScope.modifyScope n (·.set name (some (.value q)))
  let site : Frame := ⟨[], [n]⟩
  have hsize : w.scopeCount = n + 1 := by simp [w, n]
  have hscope {k : Nat} (hk : k < n) : w.scope k = made.scope k := by
    rw [scope_modifyScope_of_ne _ _ (Nat.ne_of_lt hk), scope_newScope _ hk]
  have hw : Adds made w := ⟨.of_store_eq rfl rfl, fun _ hf => hf, by omega, hscope⟩
  have hq : w.cell q = ⟨.function name params body, none, none, some main⟩ := start.cell_alloc_size _
  have hlookup : w.store.lookup site name = some (.value q) := by
    refine (Knows.lookup_bound (fun k hk => ?_) rfl name name q).trans (if_pos rfl)
    obtain rfl := mem_singleton.1 hk
    simp [n]
  let callee : Node := .named default ⟨.identifier, .text name, default, default⟩
  let seen := w.modifyCell q fun c => { c with start := some default, stop := some default }
  have hcallee : evaluate callee site w = .ok q seen := by
    have hfound : lookup site name w = .ok (some (.value q)) w := congrArg (EStateM.Result.ok · w) hlookup
    have hpayload : payload q w = .ok (w.cell q).payload w := rfl
    refine evaluate_ok ((bind_ok hfound).trans ((bind_ok hpayload).trans ?_))
    rw [hq]
    rfl
  have hlt : q < w.size := start.lt_alloc_size _
  obtain ⟨nodes, hnodes⟩ := written_all hds
  obtain ⟨rs, v, hrs, hv, hdata⟩ := hnodes site (seen.copied q default)
  have hseen : Adds w seen := .modifyCell w q (fun _ => rfl) fun _ hf => hf
  have hcopied : Adds seen (seen.copied q default) :=
    (Adds.alloc _ _).trans (.modifyCell _ _ (fun _ => rfl) fun _ hf => hf)
  have hf : v.cell seen.size = ⟨.function name params body, some default, some default, some main⟩ := by
    rw [World.cell, hv.store.cell _ (by rw [← size, size_copied]; omega), ← World.cell, cell_copied, if_pos rfl,
      cell_modifyCell, if_pos ⟨rfl, hlt⟩, hq]
    rfl
  refine ⟨site, .apply default callee nodes, w, v, seen.size, rs, .apply (bind_ok hcallee) hrs,
    ⟨?_, main, ?_, ?_⟩, hdata⟩
  · exact ⟨params, body, hbody, by rw [hf]⟩
  · rw [hf]
  · exact hstart.adds ((Adds.alloc _ _).trans (hw.trans (hseen.trans (hcopied.trans hv.adds))))

/-- A function that computes something can be called. -/
theorem Library.Defined.gave
    (h : Library.Defined text name params code) (hds : ∀ d ∈ ds, Written d) (hc : Library.Computes text name bs ds d) :
    Library.Gave text name bs ds d := by
  obtain ⟨frame, node, w, v, f, rs, hcall, hf, hrs⟩ := h.exists_call bs hds
  obtain ⟨r, u, hr, -, -, hd⟩ := hc.creates hf hcall hrs
  exact ⟨v, f, frame, node, w, rs, r, u, hf, hcall, hrs, hr, hd⟩

end Utterance

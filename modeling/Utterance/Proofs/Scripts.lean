import Utterance.Proofs.Appending
import Utterance.Proofs.DatumValues
import Utterance.Proofs.ModuleTables
import Utterance.Proofs.ProgramSeam

/-!
# What code comes to

A function of the library is known by its text. `Script` is code without places, and `Script.fits` says that a tree is
some code, wherever the tree was read from. What code comes to follows from what its names stand for (`Knows`): there
is one rule for each way to write a value (`Script.Has`).
-/

namespace Utterance

open Eval World Eval List

variable {args : List Script} {b : Builtin} {function x : String} {k : Nat} {left right : Script} {n : Int}
  {o : Operator} {outer : List Nat} {s : Store} {t : Token}

/-- A world has all that another one has: values hold what they held, what was seen somewhere still is, and scopes
bind what they bound. -/
structure Adds (w v : World) : Prop where
  keeps : KeepsBut ∅ w v
  seen : ∀ {r}, r < w.size → (w.cell r).frame.isSome = true → (v.cell r).frame.isSome = true
  scopes : w.scopeCount ≤ v.scopeCount
  scope : ∀ {n}, n < w.scopeCount → v.scope n = w.scope n

variable {w v u : World} {frame : Frame} {d : Datum} {ds : List Datum} {q r : Ref} {rs : List Ref}

namespace Adds

theorem refl (w : World) : Adds w w := ⟨.of_store_eq rfl rfl, fun _ h => h, Nat.le_refl _, fun _ => rfl⟩

theorem trans (h : Adds w v) (h' : Adds v u) : Adds w u where
  keeps := h.keeps.andThen h'.keeps
  seen hr hf := h'.seen (Nat.lt_of_lt_of_le hr h.keeps.cells) (h.seen hr hf)
  scopes := Nat.le_trans h.scopes h'.scopes
  scope hn := (h'.scope (Nat.lt_of_lt_of_le hn h.scopes)).trans (h.scope hn)

theorem alloc (w : World) (c : Cell) : Adds w (w.alloc c) where
  keeps := .of_alloc w c
  seen hr hf := by rwa [cell_alloc, if_neg (Nat.ne_of_lt hr)]
  scopes := Nat.le_refl _
  scope _ := rfl

theorem modifyCell (w : World) (r : Ref) {f : Cell → Cell} (hp : ∀ c, (f c).payload = c.payload)
    (hf : ∀ c, c.frame.isSome = true → (f c).frame.isSome = true) : Adds w (w.modifyCell r f) where
  keeps := .of_modifyCell w r hp
  seen hq hs := by
    rw [cell_modifyCell]
    split
    · exact hf _ hs
    · exact hs
  scopes := Nat.le_refl _
  scope _ := rfl

theorem see (w : World) (r : Ref) (span : Span) (frame : Frame) : Adds w (w.see r span frame) := by
  have hplaced : Adds w (w.modifyCell r fun c => { c with start := some span.start, stop := some span.stop }) :=
    .modifyCell w r (fun _ => rfl) fun _ hf => hf
  exact hplaced.trans (.modifyCell _ r (fun _ => rfl) fun _ _ => rfl)

theorem of_enters {b : Option Builtin} (h : Enters default b frame rs w v) : Adds w v where
  keeps := h.keeps
  seen hr hs := by
    obtain ⟨u, hu, rfl⟩ := h.entered
    show (u.cell _).frame.isSome = true
    rw [hu.cell]
    split
    · rfl
    · exact hs
  scopes := h.grows.scopes
  scope := h.scope

theorem lookup (h : Adds w v) (hs : w.HasScopes frame.scopes) (name : String) :
    v.store.lookup frame name = w.store.lookup frame name :=
  congrArg (Scope.lookup name) (map_congr_left fun n hn => h.scope (hs n hn))

end Adds

theorem Denotes.lt (h : Denotes s d r) : r < s.cells.size := by
  cases d <;> exact h.1

theorem Denotes.of_payload (h : Denotes s d q) (hr : r < s.cells.size)
    (hp : (s.cell r).payload = (s.cell q).payload) : Denotes s d r := by
  cases d with
  | int | text => exact ⟨hr, hp.trans h.2⟩
  | list | tuple =>
    obtain ⟨-, rs, hq, hds⟩ := h
    exact ⟨hr, rs, hp.trans hq, hds⟩
  | dict es =>
    obtain ⟨-, n, hq, hes⟩ := h
    exact ⟨hr, n, hp.trans hq, hes⟩

theorem DenoteAll.length_eq (h : DenoteAll s ds rs) : ds.length = rs.length := by
  induction ds generalizing rs with
  | nil =>
    obtain rfl : rs = [] := h
    rfl
  | cons d ds ih =>
    obtain ⟨r, rest, rfl, -, hrest⟩ := h
    rw [length_cons, length_cons, ih hrest]

theorem mapM_cons_ok {α β : Type} {f : α → Eval β} {a : α} {l : List α} {b : β} {bs : List β} (h : f a w = .ok b v)
    (hl : l.mapM f v = .ok bs u) : (a :: l).mapM f w = .ok (b :: bs) u := by
  rw [mapM_cons, bind_ok h, bind_ok hl]
  rfl

/-- An evaluation succeeds with a datum, and all values hold what they held. -/
def Yields (w : World) (d : Datum) (x : Outcome Ref) : Prop := ∃ r u, x = .ok r u ∧ KeepsBut ∅ w u ∧ Denotes u.store d r

/-- An evaluation succeeds with a datum and adds to a world. -/
def Supplies (w : World) (d : Datum) (x : Outcome Ref) : Prop := ∃ r u, x = .ok r u ∧ Adds w u ∧ Denotes u.store d r

theorem Denotes.copied (hd : Denotes v.store d r) {c : Cell} (hc : c.payload = (v.cell r).payload) :
    Denotes (v.alloc c).store d v.size := by
  refine (hd.kept (.of_alloc v c)).of_payload (lt_alloc_size v c) ?_
  rw [cell_alloc_size, hc, (KeepsBut.of_alloc v c).payload hd.lt (Set.notMem_empty _)]

theorem Denotes.named (hd : Denotes w.store d q) (hl : w.store.lookup frame t.text = some (.value q))
    (span : Span) : Supplies w d (evaluate (.named span t) frame w) := by
  have hfound : lookup frame t.text w = .ok (some (.value q)) w := congrArg (EStateM.Result.ok · w) hl
  have hpayload : payload q w = .ok (w.cell q).payload w := rfl
  have copied (h : step evaluate (.named span t) frame w = (do
      let r ← copy q
      let r ← place r span
      frameIn r frame) w) : Supplies w d (evaluate (.named span t) frame w) := by
    rw [Applies.copy_see] at h
    exact ⟨_, _, evaluate_ok h, .alloc w _, hd.copied rfl⟩
  have same (h : step evaluate (.named span t) frame w = (do
      let r ← place q span
      frameIn r frame) w) : Supplies w d (evaluate (.named span t) frame w) :=
    ⟨q, _, evaluate_ok h, .see w q span frame, hd.kept (Adds.see w q span frame).keeps⟩
  cases d with
  | int | text => exact copied ((bind_ok hfound).trans ((bind_ok hpayload).trans (by rw [hd.2])))
  | list ds =>
    obtain ⟨-, rs, hp, -⟩ := id hd
    exact same ((bind_ok hfound).trans ((bind_ok hpayload).trans (by rw [hp])))
  | tuple ds =>
    obtain ⟨-, rs, hp, -⟩ := id hd
    exact copied ((bind_ok hfound).trans ((bind_ok hpayload).trans (by rw [hp])))
  | dict es =>
    obtain ⟨-, n, hp, -⟩ := id hd
    exact same ((bind_ok hfound).trans ((bind_ok hpayload).trans (by rw [hp])))

theorem Denotes.named_int (hd : Denotes w.store (.int n) q)
    (hl : w.store.lookup frame t.text = some (.value q)) (span : Span) :
    evaluate (.named span t) frame w = .ok w.size
      (w.alloc ⟨(w.cell q).payload, some span.start, some span.stop, some frame⟩) := by
  have hfound : lookup frame t.text w = .ok (some (.value q)) w := congrArg (EStateM.Result.ok · w) hl
  have hpayload : payload q w = .ok (w.cell q).payload w := rfl
  have hcopied : step evaluate (.named span t) frame w = (do
      let r ← copy q
      let r ← place r span
      frameIn r frame) w := (bind_ok hfound).trans ((bind_ok hpayload).trans (by rw [hd.2]))
  exact evaluate_ok (hcopied.trans (Applies.copy_see q span w))

theorem DenoteAll.get (h : DenoteAll s ds rs) (hk : ds[k]? = some d) : ∃ r, rs[k]? = some r ∧ Denotes s d r := by
  induction ds generalizing rs k with
  | nil => cases hk
  | cons e ds ih =>
    obtain ⟨r, rest, rfl, hr, hrest⟩ := h
    cases k with
    | zero => exact ⟨r, rfl, Option.some.inj hk ▸ hr⟩
    | succ k =>
      obtain ⟨q, hq, hd⟩ := ih hrest hk
      exact ⟨q, hq, hd⟩

/-! ### Scripts as trees -/

/-- Code without places. -/
inductive Script where
  | int (n : Int)
  | name (name : String)
  | call (function : String) (args : List Script)
  | operator (o : Operator) (left right : Script)
  | put (value : Script) (name : String)
  | give (value : Script)
  /-- Statements, or the elements of a list. -/
  | block (statements : List Script)
  | when (condition body : Script)
  | loop (condition body : Script)
  | each (name : String) (items body : Script)

namespace Script

mutual

def fits : Script → Node → Bool
  | int n, .number _ ⟨_, .int m, _, _⟩ => m == n
  | name x, .named _ t => t.text == x
  | call f args, .apply _ (.named _ t) nodes => t.text == f && fitAll args nodes
  | operator o l r, .binary _ left op right => Operator.ofToken? op == some o && l.fits left && r.fits right
  | put value x, .assign _ t node => t.text == x && value.fits node
  | give value, .give _ (some node) => value.fits node
  | block ss, .list _ nodes => fitAll ss nodes
  | when c b, .conditional _ [(condition, body, _)] none => c.fits condition && b.fits body
  | loop c b, .loop _ condition body => c.fits condition && b.fits body
  | each x s b, .each _ t items body => t.text == x && (s.fits items && b.fits body)
  | _, _ => false

def fitAll : List Script → List Node → Bool
  | [], [] => true
  | s :: ss, n :: ns => s.fits n && fitAll ss ns
  | _, _ => false

end

mutual

/-- Places do not matter. -/
theorem fits_alike : (s : Script) → {n n' : Node} → n.Alike AnyPlace n' → s.fits n = s.fits n'
  | int _, _, _, h => by
    cases h with
    | @number _ _ t t' _ ht =>
      obtain ⟨_, _, _, _⟩ := t
      obtain ⟨_, _, _, _⟩ := t'
      obtain ⟨-, rfl, -, -⟩ := ht
      cases ‹Scalar› <;> rfl
    | _ => rfl
  | name _, _, _, h => by
    cases h with
    | named _ ht => simp only [fits, ht.text_eq]
    | _ => rfl
  | call _ args, _, _, h => by
    cases h with
    | apply _ hc hns =>
      cases hc with
      | named _ ht => simp only [fits, ht.text_eq, fitAll_alike args hns]
      | _ => rfl
    | _ => rfl
  | operator _ l r, _, _, h => by
    cases h with
    | binary _ hl ho hr => simp only [fits, l.fits_alike hl, r.fits_alike hr, Operator.ofToken?_alike ho]
    | _ => rfl
  | put value _, _, _, h => by
    cases h with
    | assign _ ht hv => simp only [fits, ht.text_eq, value.fits_alike hv]
    | _ => rfl
  | give value, _, _, h => by
    cases h with
    | give _ hv =>
      cases hv with
      | none => rfl
      | some hv => exact value.fits_alike hv
    | _ => rfl
  | block ss, _, _, h => by
    cases h with
    | list _ hns => exact fitAll_alike ss hns
    | _ => rfl
  | when c b, _, _, h => by
    cases h with
    | conditional _ hcs ho =>
      rcases hcs with _ | ⟨⟨_, hc, hb⟩, _ | _⟩ <;> rcases ho with _ | _ <;> try rfl
      simp only [fits, c.fits_alike hc, b.fits_alike hb]
    | _ => rfl
  | loop c b, _, _, h => by
    cases h with
    | loop _ hc hb => simp only [fits, c.fits_alike hc, b.fits_alike hb]
    | _ => rfl
  | each _ s b, _, _, h => by
    cases h with
    | each _ ht hs hb => simp only [fits, ht.text_eq, s.fits_alike hs, b.fits_alike hb]
    | _ => rfl

theorem fitAll_alike : (ss : List Script) → {ns ns' : List Node} → Forall₂ (Node.Alike AnyPlace) ns ns' →
    fitAll ss ns = fitAll ss ns'
  | [], _, _, h => by cases h <;> rfl
  | s :: ss, _, _, h => by
    cases h with
    | nil => rfl
    | cons hn hns => simp only [fitAll, s.fits_alike hn, fitAll_alike ss hns]

end

end Script

/-! ### What names mean -/

/-- What a name stands for in code. -/
inductive Meaning where
  | datum (d : Datum)
  | builtin (b : Builtin)

namespace Meaning

def Of (s : Store) (r : Ref) : Meaning → Prop
  | datum d => Denotes s d r
  | builtin b => (s.cell r).payload = .builtin b

variable {m : Meaning}

theorem Of.lt (h : m.Of s r) : r < s.cells.size := by
  cases m with
  | datum d => exact Denotes.lt h
  | builtin b =>
    refine Nat.lt_of_not_le fun hr => ?_
    unfold Of at h
    rw [Store.cell, Array.getD_eq_getD_getElem?, Array.getElem?_eq_none hr] at h
    cases h

theorem Of.kept (h : m.Of w.store r) (hk : KeepsBut ∅ w v) : m.Of v.store r := by
  cases m with
  | datum d => exact Denotes.kept hk h
  | builtin b => exact (hk.payload h.lt (Set.notMem_empty _)).trans h

end Meaning

/-- In a frame some names have a meaning. -/
structure Knows (w : World) (frame : Frame) (known : List (String × Meaning)) : Prop where
  scopes : w.HasScopes frame.scopes
  meaning : ∀ {name m}, known.lookup name = some m →
    ∃ q, w.store.lookup frame name = some (.value q) ∧ m.Of w.store q

variable {known : List (String × Meaning)}

namespace Knows

theorem transfer {frame' : Frame} (h : Knows w frame known) (hk : KeepsBut ∅ w v) (hs : v.HasScopes frame'.scopes)
    (hl : ∀ x, v.store.lookup frame' x = w.store.lookup frame x) : Knows v frame' known where
  scopes := hs
  meaning hm := by
    obtain ⟨q, hq, hm⟩ := h.meaning hm
    exact ⟨q, (hl _).trans hq, hm.kept hk⟩

theorem adds (h : Knows w frame known) (ha : Adds w v) : Knows v frame known :=
  h.transfer ha.keeps (fun n hn => Nat.lt_of_lt_of_le (h.scopes n hn) ha.scopes) (ha.lookup h.scopes)

theorem lookup_bound {n : Nat} (h : w.HasScopes frame.scopes) (hs : frame.scopes = n :: outer)
    (name x : String) (r : Ref) : (w.modifyScope n (·.set name (some (.value r)))).store.lookup frame x =
      if x = name then some (.value r) else w.store.lookup frame x := by
  have hn : n < w.scopeCount := h n (by rw [hs]; exact mem_cons_self)
  by_cases hx : x = name
  · rw [if_pos hx, Store.lookup, hs, map_cons, Scope.lookup]
    simp only [scope_modifyScope_self w _ hn, Scope.get?_set, if_pos hx]
    rfl
  · rw [if_neg hx]
    unfold Store.lookup
    induction frame.scopes with
    | nil => rfl
    | cons k scopes ih =>
      rw [map_cons, map_cons, Scope.lookup, Scope.lookup, ih]
      by_cases hk : k = n
      · simp only [hk, scope_modifyScope_self w _ hn, Scope.get?_set, if_neg hx]
      · simp only [scope_modifyScope_of_ne w _ hk]

variable (h : Knows w frame known)
include h

theorem bind {n : Nat} {known' : List (String × Meaning)} (hs : frame.scopes = n :: outer) {name : String}
    (hk : ∀ {x m}, known'.lookup x = some m → if x = name then m.Of w.store r else known.lookup x = some m) :
    Knows (w.modifyScope n (·.set name (some (.value r)))) frame known' := by
  have hkept : KeepsBut ∅ w (w.modifyScope n (·.set name (some (.value r)))) := .of_store_eq rfl rfl
  refine ⟨fun k hk => by simpa using h.scopes k hk, fun {x m} hm => ?_⟩
  have hm := hk hm
  rw [lookup_bound h.scopes hs]
  split at hm
  · next hx => exact ⟨r, if_pos hx, hm.kept hkept⟩
  · next hx =>
    obtain ⟨q, hq, he⟩ := h.meaning hm
    exact ⟨q, (if_neg hx).trans hq, he.kept hkept⟩

theorem bindFirst {n : Nat} {m : Meaning} (hs : frame.scopes = n :: outer) (hm : m.Of w.store r) (name : String) :
    Knows (w.modifyScope n (·.set name (some (.value r)))) frame ((name, m) :: known) := by
  refine h.bind hs fun {x e} he => ?_
  rw [Scope.lookup_entry] at he
  split at he
  · next hx => rwa [if_pos hx, ← Option.some.inj he]
  · next hx => rwa [if_neg hx]

theorem newScope (levels : List Level) : Knows w.newScope ⟨levels, w.scopeCount :: frame.scopes⟩ known := by
  refine h.transfer (.of_store_eq rfl rfl) (fun n hn => ?_) fun x => ?_
  · have hsize := w.scopeCount_newScope
    rcases mem_cons.1 hn with rfl | hn
    · omega
    · have := h.scopes n hn
      omega
  · rw [Store.lookup, map_cons, Scope.lookup, scope_newScope_self,
      map_congr_left fun n hn => scope_newScope w (h.scopes n hn)]
    rfl

theorem bindArgs {params : List String} (hframe : frame.scopes ≠ [])
    (hrs : DenoteAll w.store ds rs) : ∃ u, bindArgs frame params rs w = .ok () u ∧ KeepsBut ∅ w u ∧
      Knows u frame ((params.zip (ds.map .datum)).reverse ++ known) := by
  obtain ⟨n, outer, hs⟩ := exists_cons_of_ne_nil hframe
  induction params generalizing rs ds known w with
  | nil => exact ⟨w, rfl, .of_store_eq rfl rfl, h⟩
  | cons name params ih =>
    cases ds with
    | nil =>
      obtain rfl : rs = [] := hrs
      exact ⟨w, rfl, .of_store_eq rfl rfl, h⟩
    | cons d ds =>
      obtain ⟨r, rs, rfl, hd, hds⟩ := hrs
      let framed := w.modifyCell r fun c => { c with frame := some frame }
      let bound := framed.modifyScope n (·.set name (some (.value r)))
      have hframed : Adds w framed := .modifyCell w r (fun _ => rfl) fun _ _ => rfl
      have hbound : KeepsBut ∅ w bound := hframed.keeps.andThen (.of_store_eq rfl rfl)
      have hknows : Knows bound frame ((name, .datum d) :: known) :=
        (h.adds hframed).bindFirst (m := .datum d) hs (hd.kept hframed.keeps) name
      obtain ⟨u, hu, hk, hrest⟩ := ih hknows (hds.kept hbound)
      refine ⟨u, ?_, hbound.andThen hk, by simpa using hrest⟩
      have hbind : Eval.bind frame name (.value r) framed = .ok () bound := by
        unfold Eval.bind
        rw [hs]
        rfl
      rw [bindArgs, bind_ok (show frameIn r frame w = .ok r framed from rfl), bind_ok hbind]
      exact hu

theorem callee (hb : known.lookup t.text = some (.builtin b)) (s span : Span) :
    ∃ f u, (do place (← copy (← evaluate (.named s t) frame)) span) w = .ok f u ∧ Adds w u ∧
      Meaning.Of u.store f (.builtin b) ∧ (u.store.cell f).frame.isSome = true := by
  obtain ⟨q, hl, hp⟩ := h.meaning hb
  let seen := w.see q s frame
  have hcell : (seen.copied q span).store.cell seen.size = _ := seen.cell_copied q span seen.size
  rw [if_pos rfl, cell_see, if_pos ⟨rfl, hp.lt⟩, hp] at hcell
  have hadds : Adds seen (seen.copied q span) := (Adds.alloc _ _).trans (.modifyCell _ _ (fun _ => rfl) fun _ hf => hf)
  refine ⟨seen.size, seen.copied q span, bind_ok (evaluate_named hl (.inr ⟨b, hp⟩) s),
    (Adds.see w q s frame).trans hadds,
    ?_, ?_⟩
  · rw [Meaning.Of, hcell]
  · rw [hcell]
    rfl

end Knows

def Scalar.Order.Orders : Scalar.Order → Int → Int → Prop
  | lt, m, n => m < n
  | gt, m, n => n < m
  | le, m, n => m ≤ n
  | ge, m, n => n ≤ m

theorem Scalar.Order.accepts_compare (rel : Scalar.Order) (m n : Int) :
    rel.accepts (compare m n) = true ↔ rel.Orders m n := by
  cases rel <;> simp [accepts, Orders, compare_lt_iff_lt, compare_gt_iff_gt]

instance (rel : Scalar.Order) (m n : Int) : Decidable (rel.Orders m n) := decidable_of_iff _ (rel.accepts_compare m n)

/-- What a built-in function makes of its arguments is what a call of it comes to. -/
theorem Performs.supplies (hl : b.params.length = rs.length)
    (h : ∀ {c u}, Adds v u → Supplies u d (builtin evaluate c b rs u)) : Performs v (.call b) rs (Supplies v d) := by
  refine ⟨fun ha => ?_⟩
  obtain ⟨c, u, he, hok, -⟩ := ha.evaluate_call hl
  have hu : Adds v u := .of_enters he
  obtain ⟨x, u', hx, hu', hd⟩ := h (c := c) hu
  obtain ⟨new, hnew, hnode⟩ := hok hx
  exact ⟨_, _, hnode, hu.trans (hu'.trans (.alloc u' new)), hd.copied hnew⟩

/-! ### What scripts give -/

/-- Whatever values its arguments are, a built-in function makes a datum of these data. -/
structure Answers (b : Builtin) (ds : List Datum) (d : Datum) : Prop where
  performs : ∀ {v rs}, DenoteAll v.store ds rs → Performs v (.call b) rs (Supplies v d)

theorem Answers.of (hl : b.params.length = ds.length)
    (h : ∀ {c u rs}, DenoteAll u.store ds rs → Supplies u d (builtin evaluate c b rs u)) : Answers b ds d :=
  ⟨fun hrs => .supplies (hl.trans hrs.length_eq) fun hu => h (hrs.kept hu.keeps)⟩

namespace Script

/-- Where some names are known, code comes to a datum. -/
structure Has (known : List (String × Meaning)) (s : Script) (d : Datum) : Prop where
  supplies : ∀ {node frame w}, s.fits node = true → Knows w frame known → Supplies w d (evaluate node frame w)

/-- Code comes to a new value. -/
structure New (known : List (String × Meaning)) (s : Script) (d : Datum) : Prop where
  makes : ∀ {node frame w}, s.fits node = true → Knows w frame known →
    ∃ u, evaluate node frame w = .ok w.size u ∧ Adds w u ∧ Denotes u.store d w.size

namespace New

theorem has {s : Script} (h : New known s d) : Has known s d := by
  refine ⟨fun {node frame w} hf hw => ?_⟩
  obtain ⟨u, hu, ha, hd⟩ := h.makes hf hw
  exact ⟨_, u, hu, ha, hd⟩

theorem int (n : Int) : New known (.int n) (.int n) := by
  refine ⟨fun {node frame w} hf _ => ?_⟩
  cases node with
  | number span t =>
    obtain ⟨kind, value, start, stop⟩ := t
    cases value with
    | int m =>
      obtain rfl := eq_of_beq hf
      have hstep : step evaluate (.number span ⟨kind, .int m, start, stop⟩) frame w =
          .ok w.size (w.alloc _) := rfl
      exact ⟨_, evaluate_ok hstep, .alloc w _, lt_alloc_size w _, by rw [cell_alloc_size]⟩
    | _ => cases hf
  | _ => cases hf

theorem name (hx : known.lookup x = some (.datum (.int n))) : New known (.name x) (.int n) := by
  refine ⟨fun {node frame w} hf hw => ?_⟩
  cases node with
  | named span t =>
    obtain rfl := eq_of_beq hf
    obtain ⟨q, hq, hd⟩ := hw.meaning hx
    exact ⟨_, Denotes.named_int hd hq span, .alloc w _, Denotes.copied hd rfl⟩
  | _ => cases hf

end New

namespace Has

theorem int (n : Int) : Has known (.int n) (.int n) := (New.int n).has

theorem int_eq {s : Script} {m : Int} (h : Has known s (.int m)) (hmn : m = n) : Has known s (.int n) := hmn ▸ h

theorem name (hx : known.lookup x = some (.datum d)) : Has known (.name x) d := by
  refine ⟨fun {node frame w} hf hw => ?_⟩
  cases node with
  | named span t =>
    obtain rfl := eq_of_beq hf
    obtain ⟨q, hq, hd⟩ := hw.meaning hx
    exact Denotes.named hd hq span
  | _ => cases hf

theorem mapM {ss : List Script} (h : Forall₂ (Has known) ss ds) {nodes : List Node}
    (hf : fitAll ss nodes = true) (hw : Knows w frame known) :
    ∃ rs u, nodes.mapM (evaluate · frame) w = .ok rs u ∧ Adds w u ∧ DenoteAll u.store ds rs := by
  induction h generalizing nodes w with
  | nil =>
    cases nodes with
    | nil => exact ⟨[], w, rfl, .refl w, rfl⟩
    | cons => cases hf
  | cons hs _ ih =>
    cases nodes with
    | nil => cases hf
    | cons n nodes =>
      obtain ⟨hn, hns⟩ := Bool.and_eq_true_iff.1 hf
      obtain ⟨r, v, hr, hv, hd⟩ := hs.supplies hn hw
      obtain ⟨rs, u, hrs, hu, hds⟩ := ih hns (hw.adds hv)
      exact ⟨r :: rs, u, mapM_cons_ok hr hrs, hv.trans hu, r, rs, rfl, hd.kept hu.keeps, hds⟩

theorem callOf (hb : known.lookup function = some (.builtin b))
    (h : ∀ {nodes frame w}, fitAll args nodes = true → Knows w frame known → ∃ rs v,
      nodes.mapM (evaluate · frame) w = .ok rs v ∧ Adds w v ∧ Performs v (.call b) rs (Supplies v d)) :
    Has known (.call function args) d := by
  refine ⟨fun {node frame w} hf hw => ?_⟩
  cases node with
  | apply span callee nodes =>
    cases callee with
    | named s t =>
      obtain ⟨ht, hnodes⟩ := Bool.and_eq_true_iff.1 hf
      obtain rfl := eq_of_beq ht
      obtain ⟨f, u, hfu, hu, hp, hframe⟩ := hw.callee hb s span
      obtain ⟨rs, v, hrs, hv, hperforms⟩ := h hnodes (hw.adds hu)
      obtain ⟨x, u', hx, hu', hd⟩ := hperforms.of (.call hfu hrs (hp.kept hv.keeps) (hv.seen hp.lt hframe))
      exact ⟨x, u', hx, hu.trans (hv.trans hu'), hd⟩
    | _ => cases hf
  | _ => cases hf

theorem call (hb : known.lookup function = some (.builtin b))
    (h : Forall₂ (Has known) args ds) (ha : Answers b ds d) : Has known (.call function args) d := by
  refine callOf hb fun hnodes hw => ?_
  obtain ⟨rs, v, hrs, hv, hds⟩ := mapM h hnodes hw
  exact ⟨rs, v, hrs, hv, ha.performs hds⟩

theorem operator {a b : Datum} (hl : Has known left a) (hr : Has known right b)
    (h : ∀ {v l r}, Denotes v.store a l → Denotes v.store b r → Supplies v d (binary o l r v)) :
    Has known (.operator o left right) d := by
  refine ⟨fun {node frame w} hf hw => ?_⟩
  cases node with
  | binary span ln op rn =>
    obtain ⟨hf, hrn⟩ := Bool.and_eq_true_iff.1 hf
    obtain ⟨ho, hln⟩ := Bool.and_eq_true_iff.1 hf
    obtain ⟨l, v, hlv, hv, hld⟩ := hl.supplies hln hw
    obtain ⟨r, u, hru, hu, hrd⟩ := hr.supplies hrn (hw.adds hv)
    obtain ⟨x, u', hx, hu', hd⟩ := h (hld.kept hu.keeps) hrd
    let placed := u'.modifyCell x fun c => { c with start := some span.start, stop := some span.stop }
    have hplaced : Adds u' placed := .modifyCell u' x (fun _ => rfl) fun _ hf => hf
    have hstep : step evaluate (.binary span ln op rn) frame w = .ok x placed := by
      refine (bind_ok hlv).trans ((bind_ok hru).trans ?_)
      rw [eq_of_beq ho]
      exact bind_ok hx
    exact ⟨x, _, evaluate_ok hstep, hv.trans (hu.trans (hu'.trans hplaced)), hd.kept hplaced.keeps⟩
  | _ => cases hf

theorem number {a b : Datum} {k : Int} (hl : Has known left a) (hr : Has known right b)
    (h : ∀ {v l r}, Denotes v.store a l → Denotes v.store b r →
      binary o l r v = resultOf (v.cell l) (.number (.int k)) v) : Has known (.operator o left right) (.int k) :=
  hl.operator hr fun {v l _} ha hb =>
    ⟨_, v.alloc ⟨.number (.int k), none, none, (v.cell l).frame⟩, h ha hb, .alloc v _, lt_alloc_size v _,
      by rw [cell_alloc_size]⟩

section

variable {m : Int} (hl : Has known left (.int m)) (hr : Has known right (.int n))

include hl hr

theorem add : Has known (.operator .add left right) (.int (m + n)) := by
  refine hl.number hr fun {v l r} hm hn => ?_
  show Eval.add _ _ r v = _
  rw [Eval.add, hm.2, hn.2]
  rfl

theorem sub : Has known (.operator .sub left right) (.int (m - n)) := by
  refine hl.number hr fun {v l r} hm hn => ?_
  show Eval.sub _ _ v = _
  rw [Eval.sub, hm.2, hn.2]
  rfl

theorem mul : Has known (.operator .mul left right) (.int (m * n)) := by
  refine hl.number hr fun {v l r} hm hn => ?_
  show Eval.mul _ _ v = _
  rw [Eval.mul, hm.2, hn.2]
  rfl

theorem order {rel : Scalar.Order} {p : Prop} [Decidable p] (hp : rel.Orders m n ↔ p) :
    Has known (.operator (.order rel) left right) (.int (if p then 1 else 0)) := by
  refine hl.number hr fun {v l r} hm hn => ?_
  show Eval.order rel _ _ v = _
  rw [Eval.order, hm.2, hn.2, ← if_congr ((rel.accepts_compare m n).trans hp) rfl rfl]
  rfl

theorem equal : Has known (.operator .eq left right) (.int (if m = n then 1 else 0)) := by
  refine hl.number hr fun {v l r} hm hn => ?_
  show eq _ _ v = _
  rw [eq, hm.2, hn.2, ← if_congr beq_iff_eq rfl rfl]
  rfl

end

theorem equalText {s t : String} (hl : Has known left (.text s)) (hr : Has known right (.text t)) :
    Has known (.operator .eq left right) (.int (if s = t then 1 else 0)) := by
  refine hl.number hr fun {v l r} hs ht => ?_
  show eq _ _ v = _
  rw [eq, hs.2, ht.2, ← if_congr beq_iff_eq rfl rfl]
  rfl

theorem element (hl : Has known left (.list ds)) (hr : Has known right (.int k))
    (hk : ds[k]? = some d) : Has known (.operator .div left right) d := by
  refine hl.operator hr fun {v l r} hds hi => ?_
  obtain ⟨-, es, hp, hes⟩ := hds
  obtain ⟨q, hq, hd⟩ := hes.get hk
  have hlt : k < es.size := by simpa using (List.getElem?_eq_some_iff.1 hq).1
  have hindex : scalarIndex? es.size (.int k) = some k := by
    show index? es.size k = some k
    rw [index?, if_pos (by omega), if_pos (by omega), Int.toNat_natCast]
  have hdiv : binary .div l r v = .ok q v := by
    show div _ _ v = _
    rw [div, hp, hi.2]
    dsimp only
    rw [hindex]
    show EStateM.Result.ok (es.getD k 0) v = _
    rw [Array.getD_eq_getD_getElem?, ← Array.getElem?_toList, hq]
    rfl
  exact ⟨q, v, hdiv, .refl v, hd⟩

end Has

end Script

end Utterance

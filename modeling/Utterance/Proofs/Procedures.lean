import Utterance.Proofs.Scripts

/-!
# What statements do

What is known while a function runs is a `Plan`: what its names stand for, and perhaps a list of its own, which no
other value holds and which `append` may therefore change. There is one rule for each statement (`Script.Acts`): it
goes on with another plan, or it gives a datum back. A loop has a plan for each of its rounds (`Script.Acts.loop`).
-/

namespace Utterance

open Eval

variable {body node : Node} {m : Meaning} {n : Int} {name x : String} {ns : List Int} {t : Prop}

variable {base mid w v u : World} {frame : Frame} {d : Datum} {ds : List Datum} {q r : Ref} {rs : List Ref}
  {known : List (String × Meaning)}

theorem KeepsBut.beyond {S : Set Stock} (h : KeepsBut ∅ w v) (h' : KeepsBut S v u)
    (hS : ∀ k ∈ S, ¬ w.store.HasStock k) :
    KeepsBut ∅ w u where
  cells := Nat.le_trans h.cells h'.cells
  tables := Nat.le_trans h.tables h'.tables
  list hr := h'.list (h.list hr)
  stock hr := (h'.stock (Nat.lt_of_lt_of_le hr h.cells)).trans (h.stock hr)
  contents hk hw := by rw [h'.contents (fun hs => hS _ hs hw) (h.hasStock hw), h.contents hk hw]

/-- Rounds that are counted: each of `n` rounds leads to the next one, and then a round is the last. -/
theorem iterate_counted {σ α : Type} {step : σ → Eval (σ ⊕ α)} (state : Nat → σ) (P : Nat → World → Prop) (n : Nat)
    {a : α} (hnext : ∀ {k w}, k < n → P k w → ∃ v, step (state k) w = .ok (.inl (state (k + 1))) v ∧ P (k + 1) v)
    (hlast : ∀ {w}, P n w → ∃ v, step (state n) w = .ok (.inr a) v ∧ P n v) (h : P 0 w) :
    ∃ v, iterate step (state 0) w = .ok a v ∧ P n v := by
  -- from every round on, by induction on the rounds that remain
  have from_round : ∀ m {k w}, k + m = n → P k w → ∃ v, iterate? step (state k) w = some (.ok a v) ∧ P n v := by
    intro m
    induction m with
    | zero =>
      intro k w hm hk
      obtain rfl : k = n := hm
      obtain ⟨v, hv, hP⟩ := hlast hk
      rw [iterate?, hv]
      exact ⟨v, rfl, hP⟩
    | succ m ih =>
      intro k w hm hk
      obtain ⟨v, hv, hP⟩ := hnext (by omega) hk
      rw [iterate?, hv]
      exact ih (by omega) hP
  obtain ⟨v, hv, hP⟩ := from_round n (Nat.zero_add n) h
  refine ⟨v, ?_, hP⟩
  rw [iterate, hv]
  rfl

def rebind (name : String) (m : Meaning) : List (String × Meaning) → List (String × Meaning)
  | [] => [(name, m)]
  | (x, e) :: known => if x = name then (name, m) :: known else (x, e) :: rebind name m known

theorem lookup_rebind (name : String) (m : Meaning) (known : List (String × Meaning)) (x : String) :
    (rebind name m known).lookup x = if x = name then some m else known.lookup x := by
  induction known with
  | nil => rw [rebind, Scope.lookup_entry]
  | cons e known ih =>
    obtain ⟨y, e⟩ := e
    rw [rebind]
    by_cases hy : y = name
    · rw [if_pos hy, Scope.lookup_entry, Scope.lookup_entry, hy]
      split <;> rfl
    · rw [if_neg hy, Scope.lookup_entry, Scope.lookup_entry, ih]
      by_cases hx : x = y
      · rw [if_pos hx, if_neg (hx ▸ hy), if_pos hx]
      · rw [if_neg hx, if_neg hx]

/-! ### Plans -/

/-- What names stand for while a function runs, and a list of integers that is its own, with its name. -/
structure Plan where
  known : List (String × Meaning)
  own : Option (String × List Int)

/-- A value has had its meaning since some world, or it is an integer; a change of a newer list changes neither. -/
def Meaning.Since (mid w : World) (q : Ref) (m : Meaning) : Prop :=
  m.Of mid.store q ∨ ∃ n, m = .datum (.int n) ∧ Denotes w.store (.int n) q

theorem Meaning.Since.of (h : m.Since mid w q) (hk : KeepsBut ∅ mid w) : m.Of w.store q := by
  rcases h with h | ⟨n, rfl, h⟩
  · exact h.kept hk
  · exact h

namespace Plan

variable {p : Plan}

def all (p : Plan) : List (String × Meaning) :=
  match p.own with
  | none => p.known
  | some (x, ns) => (x, .datum (.list (ns.map .int))) :: p.known

/-- A list with given integers has a name, and it was made after a world. -/
structure Own (mid : World) (frame : Frame) (w : World) (r : Ref) (x : String) (ns : List Int) : Prop where
  new : mid.size ≤ r
  named : w.store.lookup frame x = some (.value r)
  elements : ∃ es, (w.cell r).payload = .list es ∧ es.toList.Forall₂ (fun q n => Denotes w.store (.int n) q) ns

/-- What a plan says is so in a world; the list of its own is `r`, and it was made after the world `mid`. -/
structure Stands (p : Plan) (mid : World) (r : Ref) (frame : Frame) (w : World) : Prop where
  keeps : KeepsBut ∅ mid w
  scopes : w.HasScopes frame.scopes
  meaning : ∀ {x m}, p.known.lookup x = some m → ∃ q, w.store.lookup frame x = some (.value q) ∧ m.Since mid w q
  own : ∀ {x ns}, p.own = some (x, ns) → Own mid frame w r x ns

/-- What a plan says is so in a world, and what there was in the world `base` is as it was. -/
def Holds (p : Plan) (base : World) (frame : Frame) (w : World) : Prop :=
  ∃ mid r, KeepsBut ∅ base mid ∧ p.Stands mid r frame w

theorem denoteAll_ints {s : Store} (h : rs.Forall₂ (fun q n => Denotes s (.int n) q) ns) :
    DenoteAll s (ns.map .int) rs := by
  induction h with
  | nil => rfl
  | cons hq _ ih => exact ⟨_, _, rfl, hq, ih⟩

theorem Stands.knows (h : p.Stands mid r frame w) : Knows w frame p.all := by
  have known {x m} (hm : p.known.lookup x = some m) : ∃ q, w.store.lookup frame x = some (.value q) ∧
      m.Of w.store q := by
    obtain ⟨q, hq, hm⟩ := h.meaning hm
    exact ⟨q, hq, hm.of h.keeps⟩
  refine ⟨h.scopes, fun {x m} hm => ?_⟩
  unfold all at hm
  split at hm
  · exact known hm
  · next y ns hown =>
    rw [Scope.lookup_entry] at hm
    split at hm
    · next hx =>
      obtain ⟨-, hr, es, hes, hns⟩ := h.own hown
      refine ⟨r, hx ▸ hr, Option.some.inj hm ▸ ⟨World.lt_of_list hes, es, hes, ?_⟩⟩
      exact denoteAll_ints hns
    · exact known hm

theorem Stands.of_knows (h : Knows w frame known) (r : Ref) : Stands ⟨known, none⟩ w r frame w where
  keeps := .of_store_eq rfl rfl
  scopes := h.scopes
  meaning hm := by
    obtain ⟨q, hq, hm⟩ := h.meaning hm
    exact ⟨q, hq, .inl hm⟩
  own h := nomatch h

theorem Holds.of_knows (h : Knows w frame known) (hk : KeepsBut ∅ base w) : Holds ⟨known, none⟩ base frame w :=
  ⟨w, 0, hk, .of_knows h 0⟩

theorem Holds.keeps (h : p.Holds base frame w) : KeepsBut ∅ base w := by
  obtain ⟨mid, r, hmid, hp⟩ := h
  exact hmid.andThen hp.keeps

theorem Holds.knows (h : p.Holds base frame w) : Knows w frame p.all := by
  obtain ⟨mid, r, -, hp⟩ := h
  exact hp.knows

/-- A plan stands where integers and names are what they were; the list of its own may be another one. -/
theorem Stands.next {own : Option (String × List Int)} (h : p.Stands mid r frame w) (hk : KeepsBut ∅ mid v)
    (hs : w.scopeCount ≤ v.scopeCount) (hl : ∀ x, v.store.lookup frame x = w.store.lookup frame x)
    (hi : ∀ {n q}, Denotes w.store (.int n) q → Denotes v.store (.int n) q)
    (hown : ∀ {x ns}, own = some (x, ns) → Own mid frame v r x ns) : Stands ⟨p.known, own⟩ mid r frame v where
  keeps := hk
  scopes n hn := Nat.lt_of_lt_of_le (h.scopes n hn) hs
  meaning hm := by
    obtain ⟨q, hq, hm⟩ := h.meaning hm
    refine ⟨q, (hl _).trans hq, hm.imp_right ?_⟩
    rintro ⟨n, rfl, hn⟩
    exact ⟨n, rfl, hi hn⟩
  own := hown

theorem Stands.adds (h : p.Stands mid r frame w) (ha : Adds w v) : p.Stands mid r frame v := by
  refine h.next (h.keeps.andThen ha.keeps) ha.scopes (ha.lookup h.scopes) (fun hn => hn.kept ha.keeps)
    fun {x ns} hx => ?_
  obtain ⟨hnew, hr, es, hes, hns⟩ := h.own hx
  refine ⟨hnew, (ha.lookup h.scopes x).trans hr, es, ?_, hns.imp fun q n hq => hq.kept ha.keeps⟩
  rw [ha.keeps.payload (World.lt_of_list hes) (Set.notMem_empty _), hes]

theorem Holds.adds (h : p.Holds base frame w) (ha : Adds w v) : p.Holds base frame v := by
  obtain ⟨mid, r, hmid, hp⟩ := h
  exact ⟨mid, r, hmid, hp.adds ha⟩

theorem Stands.push (h : Stands ⟨known, some (x, ns)⟩ mid r frame w)
    (hn : Denotes w.store (.int n) q) : Stands ⟨known, some (x, ns ++ [n])⟩ mid r frame (w.push r q) := by
  obtain ⟨hnew, hr, es, hes, hns⟩ := h.own rfl
  have hpush : KeepsBut {k | k = .cell r ∧ (w.cell r).payload.isList = true} w (w.push r q) :=
    .of_mapElements w r (·.push q)
  have hint {m p} (hm : Denotes w.store (.int m) p) : Denotes (w.push r q).store (.int m) p := by
    have hne : p ≠ r := by
      rintro rfl
      rw [hm.2] at hes
      cases hes
    refine ⟨Nat.lt_of_lt_of_le hm.1 hpush.cells, ?_⟩
    rw [hpush.payload hm.1 fun hk => hne (Stock.cell.inj hk.1), hm.2]
  refine h.next (h.keeps.beyond hpush ?_) (Nat.le_refl _) (fun _ => rfl) hint fun {y ms} hy => ?_
  · rintro _ ⟨rfl, -⟩ hlt
    exact absurd hlt (Nat.not_lt.2 hnew)
  · cases hy
    refine ⟨hnew, hr, es.push q, World.payload_push hes q, ?_⟩
    rw [Array.toList_push]
    exact List.rel_append (hns.imp fun _ _ => hint) (.cons (hint hn) .nil)

theorem Stands.append (h : Stands ⟨known, some (x, ns)⟩ mid r frame v) (hn : Denotes v.store (.int n) q)
    (ha : Applies frame (.call .append) [r, q] node w v) :
    ∃ a u, evaluate node frame w = .ok a u ∧ Stands ⟨known, some (x, ns ++ [n])⟩ mid r frame u := by
  obtain ⟨c, u, he, hok, -⟩ := ha.evaluate_call rfl
  have hentered := h.adds (.of_enters he)
  obtain ⟨-, -, es, hes, -⟩ := hentered.own rfl
  have hlist : c.list r "First argument must be list" u = .ok es u := by
    rw [Call.list, bind_ok (show payload r u = .ok _ u from rfl), hes]
    rfl
  have hcall : builtin evaluate c .append [r, q] u = .ok Store.null (u.push r q) := by
    show c.append r q u = _
    rw [Call.append, bind_ok hlist]
    rfl
  obtain ⟨new, -, hnode⟩ := hok hcall
  exact ⟨_, _, hnode, (hentered.push (hn.kept he.keeps)).adds (.alloc _ new)⟩

theorem Stands.bind {n : Nat} {outer : List Nat} (h : p.Stands mid r frame w)
    (hs : frame.scopes = n :: outer) (hm : m.Since mid w q) (hx : ∀ {x ns}, p.own = some (x, ns) → x ≠ name) :
    Stands ⟨rebind name m p.known, p.own⟩ mid r frame (w.modifyScope n (·.set name (some (.value q)))) := by
  have hsize := w.scopeCount_modifyScope n (·.set name (some (.value q)))
  refine ⟨h.keeps.andThen (.of_store_eq rfl rfl), fun k hk => hsize ▸ h.scopes k hk,
    fun {x e} he => ?_, fun {x ns} hown => ?_⟩
  · rw [lookup_rebind] at he
    rw [Knows.lookup_bound h.scopes hs]
    split at he
    · next hx => exact ⟨q, if_pos hx, Option.some.inj he ▸ hm⟩
    · next hx =>
      obtain ⟨q, hq, he⟩ := h.meaning he
      exact ⟨q, (if_neg hx).trans hq, he⟩
  · obtain ⟨hnew, hr, hes⟩ := h.own hown
    exact ⟨hnew, by rw [Knows.lookup_bound h.scopes hs, if_neg (hx hown), hr], hes⟩

end Plan

/-! ### Actions -/

/-- How statements end: they go on with a plan, or give a datum back. -/
inductive Upshot where
  | falls (plan : Plan)
  | gives (datum : Datum)

def Upshot.Reached {α : Type} (base : World) (frame : Frame) (x : Outcome α) : Upshot → Prop
  | falls p => ∃ a u, x = .ok a u ∧ p.Holds base frame u
  | gives d => ∃ r u, x = .error (.give r) u ∧ KeepsBut ∅ base u ∧ Denotes u.store d r

namespace Script

/-- Where a plan holds, a statement has an ending. -/
structure Acts (p : Plan) (s : Script) (e : Upshot) : Prop where
  acts : ∀ {node frame base w}, s.fits node = true → frame.scopes ≠ [] → p.Holds base frame w →
    e.Reached base frame (evaluate node frame w)

/-- The same for statements one after the other. -/
structure Does (p : Plan) (ss : List Script) (e : Upshot) : Prop where
  does : ∀ {nodes frame base w}, fitAll ss nodes = true → frame.scopes ≠ [] → p.Holds base frame w →
    e.Reached base frame (nodes.mapM (evaluate · frame) w)

variable {p p' : Plan} {s c b : Script} {ss : List Script} {e : Upshot}

namespace Does

theorem nil : Does p [] (.falls p) := by
  refine ⟨fun {nodes frame base w} hf _ hp => ?_⟩
  cases nodes with
  | nil => exact ⟨[], w, rfl, hp⟩
  | cons node nodes => cases hf

theorem cons (hs : Acts p s (.falls p')) (hss : Does p' ss e) : Does p (s :: ss) e := by
  refine ⟨fun {nodes frame base w} hf hframe hp => ?_⟩
  cases nodes with
  | nil => cases hf
  | cons node nodes =>
    obtain ⟨hn, hns⟩ := Bool.and_eq_true_iff.1 hf
    obtain ⟨a, u, ha, hu⟩ := hs.acts hn hframe hp
    have hrest := hss.does hns hframe hu
    rw [List.mapM_cons, bind_ok ha]
    cases e with
    | falls =>
      obtain ⟨as, v, has, hv⟩ := hrest
      exact ⟨a :: as, v, bind_ok has, hv⟩
    | gives =>
      obtain ⟨r, v, hr, hv⟩ := hrest
      exact ⟨r, v, bind_error hr, hv⟩

/-- What stands after a statement that gives something back is not reached. -/
theorem stop (hs : Acts p s (.gives d)) : Does p (s :: ss) (.gives d) := by
  refine ⟨fun {nodes frame base w} hf hframe hp => ?_⟩
  cases nodes with
  | nil => cases hf
  | cons node nodes =>
    obtain ⟨r, u, hr, hu⟩ := hs.acts (Bool.and_eq_true_iff.1 hf).1 hframe hp
    refine ⟨r, u, ?_, hu⟩
    rw [List.mapM_cons, bind_error hr]

end Does

namespace Acts

theorem block (h : Does p ss e) : Acts p (.block ss) e := by
  refine ⟨fun {node frame base w} hf hframe hp => ?_⟩
  cases node with
  | list span nodes =>
    have hnodes := h.does hf hframe hp
    cases e with
    | falls =>
      obtain ⟨as, u, has, hu⟩ := hnodes
      have hstep : step evaluate (.list span nodes) frame w = .ok u.size (u.alloc _) := bind_ok has
      exact ⟨_, _, evaluate_ok hstep, hu.adds (.alloc u _)⟩
    | gives =>
      obtain ⟨r, u, hr, hu⟩ := hnodes
      have hstep : step evaluate (.list span nodes) frame w = .error (.give r) u := bind_error hr
      exact ⟨r, u, evaluate_of_step hstep (ends_error.2 nofun), hu⟩
  | _ => cases hf

theorem give (h : Has p.all s d) : Acts p (.give s) (.gives d) := by
  refine ⟨fun {node frame base w} hf _ hp => ?_⟩
  cases node with
  | give span value =>
    cases value with
    | none => cases hf
    | some value =>
      obtain ⟨r, u, hr, hu, hd⟩ := h.supplies hf hp.knows
      have hstep : step evaluate (.give span (some value)) frame w = .error (.give r) u := bind_ok hr
      exact ⟨r, u, evaluate_of_step hstep (ends_error.2 nofun), hp.keeps.andThen hu.keeps, hd⟩
  | _ => cases hf

theorem binds
    (h : ∀ {value frame base w n outer}, s.fits value = true → frame.scopes = n :: outer → p.Holds base frame w →
      ∃ r v, evaluate value frame w = .ok r v ∧ p'.Holds base frame (v.modifyScope n (·.set name (some (.value r))))) :
    Acts p (.put s name) (.falls p') := by
  refine ⟨fun {node frame base w} hf hframe hp => ?_⟩
  cases node with
  | assign span t value =>
    obtain ⟨ht, hvalue⟩ := Bool.and_eq_true_iff.1 hf
    obtain ⟨n, outer, hs⟩ := List.exists_cons_of_ne_nil hframe
    obtain ⟨r, v, hr, hv⟩ := h hvalue hs hp
    have hstep : step evaluate (.assign span t value) frame w = .ok r
        (v.modifyScope n (·.set name (some (.value r)))) := by
      refine (bind_ok hr).trans ?_
      rw [Eval.bind, hs, eq_of_beq ht]
      rfl
    exact ⟨r, _, evaluate_ok hstep, hv⟩
  | _ => cases hf

theorem put (h : Has known s d) : Acts ⟨known, none⟩ (.put s name) (.falls ⟨rebind name (.datum d) known, none⟩) := by
  refine binds fun {value frame base w n outer} hvalue hs hp => ?_
  obtain ⟨r, v, hr, hv, hd⟩ := h.supplies hvalue hp.knows
  have hstands := Plan.Stands.of_knows (hp.knows.adds hv) r
  exact ⟨r, v, hr, v, r, hp.keeps.andThen hv.keeps, hstands.bind hs (.inl hd) fun hx => nomatch hx⟩

theorem putInt (h : Has p.all s (.int n)) (hx : ∀ {x ns}, p.own = some (x, ns) → x ≠ name) :
    Acts p (.put s name) (.falls ⟨rebind name (.datum (.int n)) p.known, p.own⟩) := by
  refine binds fun {value frame base w k outer} hvalue hs hp => ?_
  obtain ⟨mid, l, hmid, hp⟩ := hp
  obtain ⟨r, v, hr, hv, hd⟩ := h.supplies hvalue hp.knows
  exact ⟨r, v, hr, mid, l, hmid, (hp.adds hv).bind hs (.inr ⟨n, rfl, hd⟩) hx⟩

theorem makeList (hx : known.lookup name = none) :
    Acts ⟨known, none⟩ (.put (.block []) name) (.falls ⟨known, some (name, [])⟩) := by
  refine binds fun {value frame base w n outer} hvalue hs hp => ?_
  cases value with
  | list span nodes =>
    cases nodes with
    | cons => cases hvalue
    | nil =>
      let c : Cell := ⟨.list #[], some span.start, some span.stop, some frame⟩
      have hstep : step evaluate (.list span []) frame w = .ok w.size (w.alloc c) := rfl
      have hknows := hp.knows.adds (.alloc w c)
      have hkeeps : KeepsBut ∅ w ((w.alloc c).modifyScope n (·.set name (some (.value w.size)))) :=
        (KeepsBut.of_alloc w c).andThen (.of_store_eq rfl rfl)
      refine ⟨_, _, evaluate_ok hstep, w, w.size, hp.keeps, hkeeps, fun k hk => ?_, fun {x m} hm => ?_,
        fun {x ns} hown => ?_⟩
      · simpa using hknows.scopes k hk
      · obtain ⟨q, hq, hm'⟩ := hp.knows.meaning hm
        have hne : x ≠ name := by
          rintro rfl
          rw [hx] at hm
          cases hm
        exact ⟨q, by rw [Knows.lookup_bound hknows.scopes hs, if_neg hne]; exact hq, .inl hm'⟩
      · cases hown
        refine ⟨Nat.le_refl _, by rw [Knows.lookup_bound hknows.scopes hs, if_pos rfl], #[], ?_, .nil⟩
        show ((w.alloc c).store.cell _).payload = _
        rw [World.cell_alloc_size]
  | _ => cases hvalue

theorem append (ha : (Plan.all ⟨known, some (x, ns)⟩).lookup "append" = some (.builtin .append))
    (hs : Has (Plan.all ⟨known, some (x, ns)⟩) s (.int n)) :
    Acts ⟨known, some (x, ns)⟩ (.call "append" [.name x, s]) (.falls ⟨known, some (x, ns ++ [n])⟩) := by
  refine ⟨fun {node frame base w} hf _ hp => ?_⟩
  cases node with
  | apply span callee nodes =>
    cases callee with
    | named s₀ t =>
      obtain ⟨ht, hnodes⟩ := Bool.and_eq_true_iff.1 hf
      rcases nodes with _ | ⟨first, _ | ⟨second, _ | _⟩⟩
      · cases hnodes
      · cases (Bool.and_eq_true_iff.1 hnodes).2
      · obtain ⟨hfirst, hsecond⟩ := Bool.and_eq_true_iff.1 hnodes
        cases first with
        | named s₁ t₁ =>
          obtain ⟨mid, r, hmid, hp⟩ := hp
          -- the function and the list
          obtain ⟨f, u, hfu, hu, hb, hframe⟩ := hp.knows.callee ((eq_of_beq ht).symm ▸ ha) s₀ span
          obtain ⟨-, hlookup, es, hes, -⟩ := (hp.adds hu).own rfl
          have hlist := evaluate_named ((eq_of_beq hfirst).symm ▸ hlookup) (.inl ⟨es, hes⟩) s₁
          have hseen : Adds u (u.see r s₁ frame) := .see u r s₁ frame
          have hp := (hp.adds hu).adds hseen
          -- the integer
          obtain ⟨q, v, hq, hv, hd⟩ := hs.supplies (Bool.and_eq_true_iff.1 hsecond).1 hp.knows
          have hp := hp.adds hv
          have hargs : [.named s₁ t₁, second].mapM (evaluate · frame) u = .ok [r, q] v :=
            mapM_cons_ok hlist (mapM_cons_ok hq rfl)
          have happlies : Applies frame (.call .append) [r, q] _ w v :=
            .call hfu hargs (hb.kept (hseen.trans hv).keeps) ((hseen.trans hv).seen hb.lt hframe)
          obtain ⟨a, v', hnode, hp⟩ := hp.append hd happlies
          exact ⟨a, v', hnode, mid, r, hmid, hp⟩
        | _ => cases hfirst
      · cases (Bool.and_eq_true_iff.1 (Bool.and_eq_true_iff.1 hnodes).2).2
    | _ => cases hf
  | _ => cases hf

theorem condition [Decidable t] (hc : Has p.all c (.int (if t then 1 else 0)))
    (hf : c.fits node = true) (hp : p.Holds base frame w) :
    ∃ v, (do Eval.isTrue (← evaluate node frame)) w = .ok (decide t) v ∧ p.Holds base frame v := by
  obtain ⟨r, v, hr, hv, hd⟩ := hc.supplies hf hp.knows
  refine ⟨v, ?_, hp.adds hv⟩
  rw [bind_ok hr, Eval.isTrue, bind_ok (show payload r v = .ok _ v from rfl), hd.2]
  by_cases ht : t
  · rw [if_pos ht, decide_eq_true ht]
    rfl
  · rw [if_neg ht, decide_eq_false ht]
    rfl

theorem evaluate_when {condition : Node} (body : Node) (span : Span) (isBlock : Bool) {t : Bool}
    (hv : (do isTrue (← evaluate condition frame)) w = .ok t v) :
    step evaluate (.conditional span [(condition, body, isBlock)] none) frame w =
      if t = true then caseBody evaluate frame body isBlock v else .ok Store.null v := by
  have hsplit : step evaluate (.conditional span [(condition, body, isBlock)] none) frame = (do
      if ← (do isTrue (← evaluate condition frame)) then caseBody evaluate frame body isBlock
      else return Store.null) := by
    show conditional evaluate frame none _ = _
    simp only [conditional, otherwise, bind_assoc]
  rw [hsplit, bind_ok hv]
  cases t <;> rfl

theorem choice [Decidable t] (hc : Has p.all c (.int (if t then 1 else 0))) (hb : t → Acts p b e)
    (he : ¬ t → e = .falls p) : Acts p (.when c b) e := by
  refine ⟨fun {node frame base w} hf hframe hp => ?_⟩
  cases node with
  | conditional span cases rest =>
    rcases cases with _ | ⟨⟨test, body, isBlock⟩, _ | _⟩
    · cases hf
    · cases rest with
      | some => cases hf
      | none =>
        obtain ⟨htest, hbody⟩ := Bool.and_eq_true_iff.1 hf
        obtain ⟨v, hv, hp⟩ := condition hc htest hp
        have hstep := evaluate_when body span isBlock hv
        by_cases ht : t
        · rw [if_pos (decide_eq_true ht)] at hstep
          have hacts := (hb ht).acts hbody hframe hp
          cases e with
          | falls =>
            obtain ⟨a, u, ha, hu⟩ := hacts
            exact ⟨_, u, evaluate_ok (hstep.trans (bind_ok ha)), hu⟩
          | gives =>
            obtain ⟨r, u, hr, hu⟩ := hacts
            exact ⟨r, u, evaluate_of_step (hstep.trans (bind_error hr)) (ends_error.2 nofun), hu⟩
        · rw [if_neg (by simpa using ht)] at hstep
          rw [he ht]
          exact ⟨_, v, evaluate_ok hstep, hp⟩
    · cases rest <;> cases hf
  | _ => cases hf

theorem body_falls (hb : Acts p b (.falls p')) (hf : b.fits body = true) (hframe : frame.scopes ≠ [])
    (hp : p.Holds base frame w) : ∃ v, loopBody evaluate frame body w = .ok true v ∧ p'.Holds base frame v := by
  obtain ⟨a, v, ha, hv⟩ := hb.acts hf hframe hp
  exact ⟨v, tryCatch_ok (bind_ok ha), hv⟩

/-- A loop of `n` rounds, with a plan before each of them and one after the last. -/
theorem loop {σ : Nat → Plan} (n : Nat) (hc : ∀ k ≤ n, Has (σ k).all c (.int (if k < n then 1 else 0)))
    (hb : ∀ k < n, Acts (σ k) b (.falls (σ (k + 1)))) : Acts (σ 0) (.loop c b) (.falls (σ n)) := by
  refine ⟨fun {node frame base w} hf hframe hp => ?_⟩
  cases node with
  | loop span test body =>
    obtain ⟨htest, hbody⟩ := Bool.and_eq_true_iff.1 hf
    let round : Eval Bool := do
      if ← (do isTrue (← evaluate test frame)) then loopBody evaluate frame body else return false
    have hstep : step evaluate (.loop span test body) frame = (do rounds round; return Store.null) := by
      simp only [step, round, bind_assoc]
    obtain ⟨v, hv, hn⟩ : ∃ v, rounds round w = .ok () v ∧ (σ n).Holds base frame v := by
      refine iterate_counted (fun _ => ()) (fun k => (σ k).Holds base frame) n
        (fun {k w} hk hp => ?_) (fun {w} hp => ?_) hp
      · obtain ⟨v, hv, hp⟩ := condition (hc k (Nat.le_of_lt hk)) htest hp
        obtain ⟨u, hu, hp⟩ := body_falls (hb k hk) hbody hframe hp
        rw [decide_eq_true hk] at hv
        have hround : round w = .ok true u := (bind_ok hv).trans hu
        exact ⟨u, bind_ok hround, hp⟩
      · obtain ⟨v, hv, hp⟩ := condition (hc n (Nat.le_refl n)) htest hp
        rw [decide_eq_false (Nat.lt_irrefl n)] at hv
        have hround : round w = .ok false v := bind_ok hv
        exact ⟨v, bind_ok hround, hp⟩
    exact ⟨_, v, evaluate_ok ((congrFun hstep w).trans (bind_ok hv)), hn⟩
  | _ => cases hf

/-- A loop through the elements of a list. The name of the element is known in its round only. -/
theorem each {σ : Nat → List (String × Meaning)} (hs : Has (σ 0) s (.list ds)) (hx : ∀ k, (σ k).lookup x = none)
    (hb : ∀ {k d}, ds[k]? = some d → Acts ⟨(x, .datum d) :: σ k, none⟩ b (.falls ⟨(x, .datum d) :: σ (k + 1), none⟩)) :
    Acts ⟨σ 0, none⟩ (.each x s b) (.falls ⟨σ ds.length, none⟩) := by
  refine ⟨fun {node frame base w} hf hframe hp => ?_⟩
  cases node with
  | each span t items body =>
    obtain ⟨ht, hf⟩ := Bool.and_eq_true_iff.1 hf
    obtain ⟨hitems, hbody⟩ := Bool.and_eq_true_iff.1 hf
    obtain ⟨n, outer, hscopes⟩ := List.exists_cons_of_ne_nil hframe
    obtain ⟨r, start, hr, hstart, hd⟩ := hs.supplies hitems hp.knows
    obtain ⟨-, es, hes, hds⟩ := id hd
    have helements {k w} (hw : KeepsBut ∅ start w) : elementAt? r k w = .ok es[k]? w := by
      rw [elementAt?, bind_ok (show payload r w = .ok _ w from rfl), hw.payload hd.lt (Set.notMem_empty _), hes]
      rfl
    obtain ⟨v, hv, hlast⟩ : ∃ v, Eval.each evaluate frame t.text r body start = .ok () v ∧
        (Plan.mk (σ ds.length) none).Holds start frame v := by
      refine iterate_counted id (fun k => (Plan.mk (σ k) none).Holds start frame) ds.length
        (fun {k w} hk hp => ?_) (fun {w} hp => ?_) (.of_knows (hp.knows.adds hstart) (.of_store_eq rfl rfl))
      · obtain ⟨q, hq, hd⟩ := hds.get (List.getElem?_eq_getElem hk)
        have hknows := hp.knows.bindFirst (m := .datum ds[k]) hscopes (hd.kept hp.keeps) x
        obtain ⟨u, hu, hp'⟩ := body_falls (hb (List.getElem?_eq_getElem hk)) hbody hframe
          (.of_knows hknows (hp.keeps.andThen (.of_store_eq rfl rfl)))
        have hbind : bind frame t.text (.value q) w = .ok () (w.modifyScope n (·.set x (some (.value q)))) := by
          rw [Eval.bind, hscopes, eq_of_beq ht]
          rfl
        have hround : eachRound evaluate frame t.text r body k w = .ok (.inl (k + 1)) u := by
          rw [eachRound, bind_ok (helements hp.keeps), ← Array.getElem?_toList, hq]
          exact (bind_ok hbind).trans (bind_ok hu)
        refine ⟨u, hround, .of_knows ⟨hp'.knows.scopes, fun {y m} hm => hp'.knows.meaning ?_⟩ hp'.keeps⟩
        show List.lookup y ((x, .datum ds[k]) :: σ (k + 1)) = some m
        rw [Scope.lookup_entry, if_neg, hm]
        rintro rfl
        rw [hx] at hm
        cases hm
      · have hround : eachRound evaluate frame t.text r body ds.length w = .ok (.inr ()) w := by
          rw [eachRound, bind_ok (helements hp.keeps), hds.length_eq, ← Array.getElem?_toList,
            List.getElem?_eq_none (Nat.le_refl _)]
          rfl
        exact ⟨w, hround, hp⟩
    have hstep : step evaluate (.each span t items body) frame w = .ok Store.null v := by
      refine (bind_ok hr).trans ((bind_ok (show payload r start = .ok _ start from rfl)).trans ?_)
      rw [hes]
      exact bind_ok hv
    obtain ⟨mid, l, hmid, hstands⟩ := hlast
    exact ⟨_, v, evaluate_ok hstep, mid, l, (hp.keeps.andThen hstart.keeps).andThen hmid, hstands⟩
  | _ => cases hf

end Acts

end Script

/-! ### Calls -/

/-- An evaluation succeeds with a new datum, and all values hold what they held. -/
def Creates (w : World) (d : Datum) (x : Outcome Ref) : Prop :=
  ∃ r u, x = .ok r u ∧ w.size ≤ r ∧ KeepsBut ∅ w u ∧ Denotes u.store d r

theorem Creates.yields {x : Outcome Ref} (h : Creates w d x) : Yields w d x := by
  obtain ⟨r, u, hx, -, hu, hd⟩ := h
  exact ⟨r, u, hx, hu, hd⟩

/-- A call of a function gives back what its code gives back. -/
theorem Knows.call {f : Ref} {params : List String} {ss : List Script}
    (hk : Knows w frame known) (hf : (w.cell f).payload = .function name params body)
    (hframe : (w.cell f).frame = some frame) (hrs : DenoteAll w.store ds rs) (hl : params.length = ds.length)
    (hbody : (Script.block ss).fits body = true)
    (hdoes : Script.Does ⟨(params.zip (ds.map .datum)).reverse ++ known, none⟩ ss (.gives d)) :
    Yields w d (call evaluate f rs w) := by
  let inner : Frame := ⟨⟨name, (w.cell f).start⟩ :: frame.levels, w.scopeCount :: frame.scopes⟩
  have hopen : KeepsBut ∅ w w.newScope := .of_store_eq rfl rfl
  obtain ⟨u, hu, hku, hknows⟩ := (hk.newScope inner.levels).bindArgs (List.cons_ne_nil _ _) (hrs.kept hopen)
  let entered := u.record (.called none inner rs)
  have henter : enterWith f (w.cell f) none name params rs w = .ok inner entered := by
    have hscope : enter (w.cell f) name w = .ok inner w.newScope := by
      unfold enter
      rw [hframe]
      rfl
    rcases checkArgs_cases f (w.cell f) params rs w.newScope with ⟨-, hc⟩ | ⟨hne, -⟩
    · rw [enterWith, bind_ok hscope, bind_ok hc, bind_ok hu]
      rfl
    · exact absurd (hl.trans hrs.length_eq) hne
  have hrecord : KeepsBut ∅ u entered := .of_store_eq rfl rfl
  have hentered : Knows entered inner _ := hknows.transfer hrecord hknows.scopes fun _ => rfl
  obtain ⟨r, u', hr, hu', hd⟩ :=
    (Script.Acts.block hdoes).acts hbody (List.cons_ne_nil _ _)
      (.of_knows hentered ((hopen.andThen hku).andThen hrecord))
  refine ⟨r, u', ?_, hu', hd⟩
  unfold Eval.call
  rw [bind_ok (show cell f w = .ok (w.cell f) w from rfl), hf]
  refine (bind_ok henter).trans ?_
  rw [runBody, tryCatch_error hr]
  rfl

end Utterance

import Mathlib.Data.List.Forall2
import Utterance.Tree.Basic

/-!
# Trees that differ in positions only

`Node.Alike P n n'` says that two trees are the same but for positions, and that their positions are related by `P`.
With `AnyPlace` for `P` this is what the trees of one text at two places have in common, and with equality for `P` it
holds of a tree and itself. The relation is reflexive and symmetric where `P` is
(`Node.Alike.refl`, `Node.Alike.symm`).
-/

namespace Utterance

open List

abbrev AnyPlace (_ _ : Position) : Prop := True

instance : Std.Refl AnyPlace := ⟨fun _ => trivial⟩

instance : Std.Symm AnyPlace := ⟨fun _ _ _ => trivial⟩

variable (P : Position → Position → Prop)

structure Span.Alike (s s' : Span) : Prop where
  start : P s.start s'.start
  stop : P s.stop s'.stop

structure Token.Alike (t t' : Token) : Prop where
  kind : t.kind = t'.kind
  value : t.value = t'.value
  start : P t.start t'.start
  stop : P t.stop t'.stop

def ItemAlike (i i' : Item) : Prop := i.1.Alike P i'.1 ∧ Option.Rel (Token.Alike P) i.2 i'.2

namespace Node

mutual

inductive Alike : Node → Node → Prop
  | number {s s' t t'} : s.Alike P s' → t.Alike P t' → Alike (number s t) (number s' t')
  | string {s s' t t'} : s.Alike P s' → t.Alike P t' → Alike (string s t) (string s' t')
  | regex {s s' t t'} : s.Alike P s' → t.Alike P t' → Alike (regex s t) (regex s' t')
  | list {s s' es es'} : s.Alike P s' → Forall₂ Alike es es' → Alike (list s es) (list s' es')
  | comprehension {s s' e e' cs cs'} : s.Alike P s' → Alike e e' → Forall₂ ClauseAlike cs cs' →
    Alike (comprehension s e cs) (comprehension s' e' cs')
  | tuple {s s' es es'} : s.Alike P s' → Forall₂ Alike es es' → Alike (tuple s es) (tuple s' es')
  | set {s s' es es'} : s.Alike P s' → Forall₂ Alike es es' → Alike (set s es) (set s' es')
  | dict {s s' ps ps'} : s.Alike P s' → Forall₂ PairAlike ps ps' → Alike (dict s ps) (dict s' ps')
  | named {s s' t t'} : s.Alike P s' → t.Alike P t' → Alike (named s t) (named s' t')
  | assign {s s' t t' v v'} : s.Alike P s' → t.Alike P t' → Alike v v' → Alike (assign s t v) (assign s' t' v')
  | constant {s s' t t' v v'} : s.Alike P s' → t.Alike P t' → Alike v v' →
    Alike (constant s t v) (constant s' t' v')
  | binary {s s' l l' o o' r r'} : s.Alike P s' → Alike l l' → o.Alike P o' → Alike r r' →
    Alike (binary s l o r) (binary s' l' o' r')
  | unary {s s' o o' v v'} : s.Alike P s' → o.Alike P o' → Alike v v' → Alike (unary s o v) (unary s' o' v')
  | apply {s s' c c' as as'} : s.Alike P s' → Alike c c' → Forall₂ Alike as as' →
    Alike (apply s c as) (apply s' c' as')
  | index {s s' c c' k k'} : s.Alike P s' → Alike c c' → Alike k k' → Alike (index s c k) (index s' c' k')
  | conditional {s s' cs cs' o o'} : s.Alike P s' → Forall₂ CaseAlike cs cs' →
    Option.Rel BodyAlike o o' → Alike (conditional s cs o) (conditional s' cs' o')
  | switch {s s' v v' cs cs' o o'} : s.Alike P s' → Alike v v' → Forall₂ CaseAlike cs cs' →
    Option.Rel BodyAlike o o' → Alike (switch s v cs o) (switch s' v' cs' o')
  | count {s s' t t' f f' l l' st st' b b'} : s.Alike P s' → t.Alike P t' → Alike f f' → Alike l l' →
    Option.Rel Alike st st' → Alike b b' → Alike (count s t f l st b) (count s' t' f' l' st' b')
  | each {s s' t t' v v' b b'} : s.Alike P s' → t.Alike P t' → Alike v v' → Alike b b' →
    Alike (each s t v b) (each s' t' v' b')
  | loop {s s' c c' b b'} : s.Alike P s' → Alike c c' → Alike b b' → Alike (loop s c b) (loop s' c' b')
  | repetition {s s' b b' c c'} : s.Alike P s' → Alike b b' → Alike c c' →
    Alike (repetition s b c) (repetition s' b' c')
  | function {s s' t t' ps ps' b b'} : s.Alike P s' → Option.Rel (Token.Alike P) t t' →
    Forall₂ (Token.Alike P) ps ps' → Alike b b' → Alike (function s t ps b) (function s' t' ps' b')
  | lambda {s s' ps ps' b b'} : s.Alike P s' → Forall₂ (Token.Alike P) ps ps' → Alike b b' →
    Alike (lambda s ps b) (lambda s' ps' b')
  | give {s s' v v'} : s.Alike P s' → Option.Rel Alike v v' → Alike (give s v) (give s' v')
  | cut {s s'} : s.Alike P s' → Alike (cut s) (cut s')
  | skip {s s'} : s.Alike P s' → Alike (skip s) (skip s')
  | attempt {s s' b b' h h' t t'} : s.Alike P s' → Alike b b' → Alike h h' → Option.Rel (Token.Alike P) t t' →
    Alike (attempt s b h t) (attempt s' b' h' t')
  | bring {s s' t t' is is'} : s.Alike P s' → t.Alike P t' → Option.Rel (Forall₂ (ItemAlike P)) is is' →
    Alike (bring s t is) (bring s' t' is')
  | share {s s' ts ts'} : s.Alike P s' → Forall₂ (Token.Alike P) ts ts' → Alike (share s ts) (share s' ts')

inductive PairAlike : Node × Node → Node × Node → Prop
  | mk {k k' v v'} : Alike k k' → Alike v v' → PairAlike (k, v) (k', v')

inductive CaseAlike : Case → Case → Prop
  | mk {c c' n n'} (b : Bool) : Alike c c' → Alike n n' → CaseAlike (c, n, b) (c', n', b)

inductive BodyAlike : Node × Bool → Node × Bool → Prop
  | mk {n n'} (b : Bool) : Alike n n' → BodyAlike (n, b) (n', b)

inductive ClauseAlike : Clause → Clause → Prop
  | mk {t t' n n' ns ns'} : t.Alike P t' → Alike n n' → Forall₂ Alike ns ns' →
    ClauseAlike (t, n, ns) (t', n', ns')

end

end Node

variable {P} {α β : Type}

theorem optionRel_refl {R : α → α → Prop} (h : ∀ a, R a a) (o : Option α) : Option.Rel R o o := by
  cases o with
  | none => exact .none
  | some a => exact .some (h a)

theorem forall₂_refl {R : α → α → Prop} (h : ∀ a, R a a) (l : List α) : Forall₂ R l l :=
  List.forall₂_same.2 fun a _ => h a

theorem Token.Alike.text_eq {t t' : Token} (h : t.Alike P t') : t.text = t'.text := by
  rw [Token.text, Token.text, h.value]

theorem Token.Alike.texts_eq {ts ts' : List Token} (h : Forall₂ (Token.Alike P) ts ts') :
    ts.map Token.text = ts'.map Token.text := by
  induction h with
  | nil => rfl
  | cons h _ ih => rw [map_cons, map_cons, h.text_eq, ih]

theorem Span.Alike.refl [Std.Refl P] (s : Span) : s.Alike P s := ⟨Std.Refl.refl _, Std.Refl.refl _⟩

theorem Token.Alike.refl [Std.Refl P] (t : Token) : t.Alike P t := ⟨rfl, rfl, Std.Refl.refl _, Std.Refl.refl _⟩

theorem ItemAlike.refl [Std.Refl P] (i : Item) : ItemAlike P i i :=
  ⟨.refl _, optionRel_refl Token.Alike.refl _⟩

namespace Node

mutual

theorem Alike.refl [Std.Refl P] : (n : Node) → Alike P n n
  | .number s t => .number (.refl s) (.refl t)
  | .string s t => .string (.refl s) (.refl t)
  | .regex s t => .regex (.refl s) (.refl t)
  | .list s es => .list (.refl s) (all_refl es)
  | .comprehension s e cs => .comprehension (.refl s) (.refl e) (clauses_refl cs)
  | .tuple s es => .tuple (.refl s) (all_refl es)
  | .set s es => .set (.refl s) (all_refl es)
  | .dict s ps => .dict (.refl s) (pairs_refl ps)
  | .named s t => .named (.refl s) (.refl t)
  | .assign s t v => .assign (.refl s) (.refl t) (.refl v)
  | .constant s t v => .constant (.refl s) (.refl t) (.refl v)
  | .binary s l o r => .binary (.refl s) (.refl l) (.refl o) (.refl r)
  | .unary s o v => .unary (.refl s) (.refl o) (.refl v)
  | .apply s c as => .apply (.refl s) (.refl c) (all_refl as)
  | .index s c k => .index (.refl s) (.refl c) (.refl k)
  | .conditional s cs o => .conditional (.refl s) (cases_refl cs) (body_refl o)
  | .switch s v cs o => .switch (.refl s) (.refl v) (cases_refl cs) (body_refl o)
  | .count s t f l st b =>
    .count (.refl s) (.refl t) (.refl f) (.refl l) (maybe_refl st) (.refl b)
  | .each s t v b => .each (.refl s) (.refl t) (.refl v) (.refl b)
  | .loop s c b => .loop (.refl s) (.refl c) (.refl b)
  | .repetition s b c => .repetition (.refl s) (.refl b) (.refl c)
  | .function s _ _ b =>
    .function (.refl s) (optionRel_refl .refl _) (forall₂_refl .refl _) (.refl b)
  | .lambda s _ b => .lambda (.refl s) (forall₂_refl .refl _) (.refl b)
  | .give s v => .give (.refl s) (maybe_refl v)
  | .cut s => .cut (.refl s)
  | .skip s => .skip (.refl s)
  | .attempt s b h _ => .attempt (.refl s) (.refl b) (.refl h) (optionRel_refl .refl _)
  | .bring s t _ => .bring (.refl s) (.refl t) (optionRel_refl (forall₂_refl .refl) _)
  | .share s _ => .share (.refl s) (forall₂_refl .refl _)

theorem all_refl [Std.Refl P] : (ns : List Node) → Forall₂ (Alike P) ns ns
  | [] => .nil
  | n :: ns => .cons (.refl n) (all_refl ns)

theorem maybe_refl [Std.Refl P] : (o : Option Node) → Option.Rel (Alike P) o o
  | none => .none
  | some n => .some (.refl n)

theorem body_refl [Std.Refl P] : (o : Option (Node × Bool)) → Option.Rel (BodyAlike P) o o
  | none => .none
  | some (n, b) => .some (.mk b (.refl n))

theorem pairs_refl [Std.Refl P] : (ps : List (Node × Node)) → Forall₂ (PairAlike P) ps ps
  | [] => .nil
  | (k, v) :: ps => .cons (.mk (.refl k) (.refl v)) (pairs_refl ps)

theorem cases_refl [Std.Refl P] : (cs : List Case) → Forall₂ (CaseAlike P) cs cs
  | [] => .nil
  | (c, n, b) :: cs => .cons (.mk b (.refl c) (.refl n)) (cases_refl cs)

theorem clauses_refl [Std.Refl P] : (cs : List Clause) → Forall₂ (ClauseAlike P) cs cs
  | [] => .nil
  | (t, n, ns) :: cs => .cons (.mk (.refl t) (.refl n) (all_refl ns)) (clauses_refl cs)

end

end Node

theorem optionRel_symm {R : α → β → Prop} {S : β → α → Prop} {o : Option α} {o' : Option β}
    (hR : ∀ a b, R a b → S b a) (h : Option.Rel R o o') : Option.Rel S o' o := by
  cases h with
  | none => exact .none
  | some h => exact .some (hR _ _ h)

theorem forall₂_symm {R : α → β → Prop} {S : β → α → Prop} {l : List α} {l' : List β}
    (hR : ∀ a b, R a b → S b a) (h : Forall₂ R l l') : Forall₂ S l' l := by
  induction h with
  | nil => exact .nil
  | cons h _ ih => exact .cons (hR _ _ h) ih

variable [Std.Symm P]

theorem Span.Alike.symm {s s' : Span} (h : s.Alike P s') : s'.Alike P s :=
  ⟨Std.Symm.symm _ _ h.start, Std.Symm.symm _ _ h.stop⟩

theorem Token.Alike.symm {t t' : Token} (h : t.Alike P t') : t'.Alike P t :=
  ⟨h.kind.symm, h.value.symm, Std.Symm.symm _ _ h.start, Std.Symm.symm _ _ h.stop⟩

theorem ItemAlike.symm {i i' : Item} (h : ItemAlike P i i') : ItemAlike P i' i :=
  ⟨h.1.symm, optionRel_symm (fun _ _ => .symm) h.2⟩

theorem Node.Alike.symm {n n' : Node} (h : n.Alike P n') : n'.Alike P n :=
  @Node.Alike.rec P (fun n n' _ => n'.Alike P n) (fun p p' _ => PairAlike P p' p) (fun c c' _ => CaseAlike P c' c)
    (fun b b' _ => BodyAlike P b' b) (fun c c' _ => ClauseAlike P c' c) (fun l l' _ => Forall₂ (Alike P) l' l)
    (fun l l' _ => Forall₂ (ClauseAlike P) l' l) (fun l l' _ => Forall₂ (PairAlike P) l' l)
    (fun l l' _ => Forall₂ (CaseAlike P) l' l) (fun o o' _ => Option.Rel (BodyAlike P) o' o)
    (fun o o' _ => Option.Rel (Alike P) o' o)
    (fun hs ht => .number hs.symm ht.symm)
    (fun hs ht => .string hs.symm ht.symm)
    (fun hs ht => .regex hs.symm ht.symm)
    (fun hs _ hes => .list hs.symm hes)
    (fun hs _ _ he hcs => .comprehension hs.symm he hcs)
    (fun hs _ hes => .tuple hs.symm hes)
    (fun hs _ hes => .set hs.symm hes)
    (fun hs _ hps => .dict hs.symm hps)
    (fun hs ht => .named hs.symm ht.symm)
    (fun hs ht _ hv => .assign hs.symm ht.symm hv)
    (fun hs ht _ hv => .constant hs.symm ht.symm hv)
    (fun hs _ ho _ hl hr => .binary hs.symm hl ho.symm hr)
    (fun hs ho _ hv => .unary hs.symm ho.symm hv)
    (fun hs _ _ hc has => .apply hs.symm hc has)
    (fun hs _ _ hc hk => .index hs.symm hc hk)
    (fun hs _ _ hcs ho => .conditional hs.symm hcs ho)
    (fun hs _ _ _ hv hcs ho => .switch hs.symm hv hcs ho)
    (fun hs ht _ _ _ _ hf hl hst hb => .count hs.symm ht.symm hf hl hst hb)
    (fun hs ht _ _ hv hb => .each hs.symm ht.symm hv hb)
    (fun hs _ _ hc hb => .loop hs.symm hc hb)
    (fun hs _ _ hb hc => .repetition hs.symm hb hc)
    (fun hs ht hps _ hb => .function hs.symm (optionRel_symm (fun _ _ => .symm) ht)
      (forall₂_symm (fun _ _ => .symm) hps) hb)
    (fun hs hps _ hb => .lambda hs.symm (forall₂_symm (fun _ _ => .symm) hps) hb)
    (fun hs _ hv => .give hs.symm hv)
    (fun hs => .cut hs.symm)
    (fun hs => .skip hs.symm)
    (fun hs _ _ ht hb hh => .attempt hs.symm hb hh (optionRel_symm (fun _ _ => .symm) ht))
    (fun hs ht hi => .bring hs.symm ht.symm
      (optionRel_symm (fun _ _ => forall₂_symm fun _ _ => .symm) hi))
    (fun hs hts => .share hs.symm (forall₂_symm (fun _ _ => .symm) hts))
    (fun _ _ hk hv => .mk hk hv)
    (fun b _ _ hc hn => .mk b hc hn)
    (fun b _ hn => .mk b hn)
    (fun ht _ _ hn hns => .mk ht.symm hn hns)
    .nil (fun _ _ h hs => .cons h hs) .nil (fun _ _ h hs => .cons h hs) .nil (fun _ _ h hs => .cons h hs)
    .nil (fun _ _ h hs => .cons h hs) (fun _ h => .some h) .none (fun _ h => .some h) .none _ _ h

end Utterance

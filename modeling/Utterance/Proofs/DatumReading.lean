import Utterance.Proofs.DatumTokens
import Utterance.Proofs.DatumValues
import Utterance.Proofs.WrittenReading
import Utterance.Session

/-!
# Reading data back

A writable datum is written like an expression that gives it (`exists_forms`), so that the program which is the datum
is read as a tree that gives it (`parse_datum`). Together with the tokens of data and with printing this says that a
value that is a writable datum can be printed and read back (`run_printed`).
-/

namespace Utterance

open List Datum

open Token (Kind)

variable {d : Datum} {ts : List Token}

namespace Grammar

open Filter Reading

/-- An expression is written as a datum is, and gives it wherever it stands. -/
structure Forms (e : Node) (d : Datum) : Prop where
  expression : e.Expression
  written : e.written true = d.marks
  gives {e' : Node} : e'.Alike AnyPlace e → Gives e' d

def at_ (m : Mark) : Token := ⟨m.1, m.2, default, default⟩

theorem forms_int (n : Int) : ∃ e, Forms e (.int n) := by
  have hnat (k : Nat) {e' : Node} (h : e'.Alike AnyPlace (.number default (at_ (.int, .int k)))) :
      Gives e' (.int k) := by
    cases h with
    | number _ ht => exact gives_int ht.value
  by_cases hn : n < 0
  · refine ⟨.unary default (at_ (bare .minus)) (.number default (at_ (.int, .int n.natAbs))),
      .sign (.inr rfl) (.number (.inl rfl)), ?_, fun {e'} h => ?_⟩
    · rw [show (int n).marks = _ from if_pos hn]
      rfl
    · cases h with
      | unary _ ho h =>
        rw [show n = -(n.natAbs : Int) by omega]
        exact gives_minus ho.kind (hnat _ h)
  · refine ⟨.number default (at_ (.int, .int n.natAbs)), .number (.inl rfl), ?_, fun {e'} h => ?_⟩
    · rw [show (int n).marks = _ from if_neg hn]
      rfl
    · rw [show n = (n.natAbs : Int) by omega]
      exact hnat _ h

theorem forms_text (s : String) : ∃ e, Forms e (.text s) := by
  refine ⟨.string default (at_ (.string, .text s)), .string rfl, rfl, fun {e'} h => ?_⟩
  cases h with
  | string _ ht => exact gives_text ht.value

theorem forms_key (k : Key) : ∃ e, Forms e k.datum := by
  cases k with
  | int n => exact forms_int n
  | text s => exact forms_text s

variable {δ γ : Type} {R : γ → δ → Prop} {xs : List δ}

theorem forms_all (h : ∀ x ∈ xs, ∃ e, R e x) : ∃ es, Forall₂ R es xs := by
  induction xs with
  | nil => exact ⟨[], .nil⟩
  | cons x xs ih =>
    obtain ⟨e, he⟩ := h x (by simp)
    obtain ⟨es, hes⟩ := ih fun y hy => h y (by simp [hy])
    exact ⟨e :: es, .cons he hes⟩

theorem forms_mem {es : List γ} (h : Forall₂ R es xs) {e : γ} (he : e ∈ es) : ∃ x, R e x := by
  induction h with
  | nil => cases he
  | cons hx _ ih =>
    rcases mem_cons.1 he with rfl | he
    · exact ⟨_, hx⟩
    · exact ih he

section

variable {es es' : List Node} {ds : List Datum} (h : Forall₂ Forms es ds)

include h

theorem forms_expressions : ∀ e ∈ es, e.Expression := by
  intro e he
  obtain ⟨d, hd⟩ := forms_mem h he
  exact hd.expression

theorem forms_gives (halike : Forall₂ (Node.Alike AnyPlace) es' es) : Forall₂ Gives es' ds := by
  induction h generalizing es' with
  | nil =>
    cases halike
    exact .nil
  | cons hd _ ih =>
    cases halike with
    | cons ha has => exact .cons (hd.gives ha) (ih has)

theorem forms_more : Node.writtenAfter (bare .comma) es = moreElementMarks ds := by
  induction h with
  | nil => rfl
  | cons hd _ ih => rw [Node.writtenAfter, moreElementMarks, hd.written, ih]

theorem forms_row : Node.writtenRow es = elementMarks ds := by
  cases h with
  | nil => rfl
  | cons hd hds => rw [Node.writtenRow, elementMarks, hd.written, forms_more hds]

end

def FormsEntry (p : Node × Node) (e : Key × Datum) : Prop := Forms p.1 e.1.datum ∧ Forms p.2 e.2

theorem key_marks (k : Key) : k.datum.marks = k.marks := by
  cases k <;> rfl

section

variable {ps ps' : List (Node × Node)} {es : List (Key × Datum)} (h : Forall₂ FormsEntry ps es)

include h

theorem forms_entries : ∀ p ∈ ps, p.1.Expression ∧ p.2.Expression := by
  intro p hp
  obtain ⟨e, he⟩ := forms_mem h hp
  exact ⟨he.1.expression, he.2.expression⟩

theorem forms_givesEntries (halike : Forall₂ (Node.PairAlike AnyPlace) ps' ps) : Forall₂ GivesEntry ps' es := by
  induction h generalizing ps' with
  | nil =>
    cases halike
    exact .nil
  | cons he _ ih =>
    cases halike with
    | cons ha has =>
      cases ha with
      | mk hk hv => exact .cons ⟨he.1.gives hk, he.2.gives hv⟩ (ih has)

theorem forms_morePairs : Node.writtenMorePairs ps = moreEntryMarks es := by
  induction h with
  | nil => rfl
  | cons he _ ih =>
    rw [Node.writtenMorePairs, moreEntryMarks, he.1.written, he.2.written, key_marks, ih]

theorem forms_pairs : Node.writtenPairs ps = entryMarks es := by
  cases h with
  | nil => rfl
  | cons he hes =>
    rw [Node.writtenPairs, entryMarks, he.1.written, he.2.written, key_marks, forms_morePairs hes]

end

/-- Every writable datum is written like an expression that gives it. -/
theorem exists_forms (hw : Writable d) : ∃ e, Forms e d := by
  induction hw with
  | int _ => exact forms_int _
  | text _ => exact forms_text _
  | list _ ih =>
    obtain ⟨es, hes⟩ := forms_all ih
    refine ⟨.list default es, .list (forms_expressions hes), ?_, fun {e'} h => ?_⟩
    · rw [Node.written, forms_row hes, marks]
    · cases h with
      | list _ h => exact gives_list (forms_gives hes h)
  | tuple _ _ ih =>
    obtain ⟨es, hes⟩ := forms_all ih
    refine ⟨.tuple default es, .tuple (forms_expressions hes), ?_, fun {e'} h => ?_⟩
    · rw [Node.written, forms_row hes, marks]
    · cases h with
      | tuple _ h => exact gives_tuple (forms_gives hes h)
  | @dict es hnew _ _ ih =>
    obtain ⟨ps, hps⟩ : ∃ ps, Forall₂ FormsEntry ps es := forms_all fun e he => by
      obtain ⟨k, hk⟩ := forms_key e.1
      obtain ⟨v, hv⟩ := ih e he
      exact ⟨(k, v), hk, hv⟩
    have hexpr := forms_entries hps
    refine ⟨.dict default ps, .dict (fun p hp => (hexpr p hp).1) fun p hp => (hexpr p hp).2, ?_, fun {e'} h => ?_⟩
    · rw [Node.written, forms_pairs hps, marks]
    · cases h with
      | dict _ h => exact gives_dict (forms_givesEntries hps h) hnew

/-- What is read as a program with enough depth is parsed, since the depth of a program is never reached. -/
theorem parse_of_reads {n : Node} {r j : Nat} (heof : ∃ t ∈ ts, t.kind = .eof)
    (h : Reads (.ofList (ts.map .token)) program 0 (.ok n, r) j) : parse (ts.map .token) = .ok n := by
  obtain ⟨depth, hdepth⟩ := h.exists
  exact parse_of_program heof hdepth

/-- The whole program that is a writable datum is a tree with one statement, which gives the datum. -/
theorem parse_datum (hw : Writable d) (hts : ts.map Token.content = d.marks ++ [bare .newline, bare .eof]) :
    ∃ span node, parse (ts.map .token) = .ok (.list span [node]) ∧ Gives node d := by
  obtain ⟨e, he⟩ := exists_forms hw
  rw [← he.written] at hts
  let input := Input.ofList (ts.map .token)
  have hs : input.Shows 0 (e.written true ++ [bare .newline, bare .eof]) := hts ▸ Input.shows_ofList [] ts
  obtain ⟨t, e', ht, ho, halike, hreads⟩ := (legible_of_expression he.expression).whole hs.head rfl
  -- then come the line end and the end, where no statement begins
  obtain ⟨⟨u, hu, hcu⟩, ⟨v, hv, hcv⟩, -⟩ := (Input.shows_append.1 hs).2
  have heof : v.kind = .eof := kind_of_content hcv
  have hlines := newlines_one hu (kind_of_content hcu) hv (by rw [heof]; decide)
  have hafter : Reads input (statementsAfter · (input.lexemes.size + 1)) (0 + (e.written true).length) ([], 0)
      (0 + (e.written true).length + 1) := by
    filter_upwards [eventually_ge_atTop 3] with n hn
    obtain ⟨n, rfl⟩ := Nat.exists_eq_add_of_le' hn
    obtain ⟨diag, hlast⟩ := read_statement_fails hv (by simp [starts, startWords, Token.isKeyword, heof]; decide) n
    refine (bind_ok hlines).trans (bind_ok (a := Except.error 0) ?_)
    rw [reply_attempt, hlast]
    dsimp only
    rw [Nat.sub_self]
  have hmem : bare .eof ∈ ts.map Token.content := by rw [hts]; simp
  obtain ⟨w, hw, hcw⟩ := mem_map.1 hmem
  exact ⟨_, e', parse_of_reads ⟨w, hw, kind_of_content hcw⟩ (reads_only ht ho hreads hafter hv heof), he.gives halike⟩

end Grammar

/-- Running what a datum is written as, with a `;` after it, gives a list whose only element is the datum. -/
theorem run_datum (hw : Writable d) (name : String) (w : World) :
    ∃ r w' q, Session.run name (String.ofList (d.chars ++ [';'])) w = .ok (.ok (some r)) w' ∧
      (w'.cell r).payload = .list #[q] ∧ Denotes w'.store d q := by
  obtain ⟨ts, hscan, hts⟩ := Token.scan_datum hw name
  obtain ⟨span, node, hparse, hgives⟩ := Grammar.parse_datum hw hts
  let source : Source := ⟨name, String.ofList (d.chars ++ [';'])⟩
  have hprepare : Eval.prepare source w = .ok (.ok (.list span [node])) w := by
    rw [Eval.prepare, hscan]
    dsimp only
    rw [hparse]
    rfl
  have hlist : Gives (.list span [node]) (.list [d]) := gives_list (.cons hgives .nil)
  obtain ⟨r, w', hr, -, -, rs, hp, hrs⟩ := hlist (Eval.programFrame name) w
  obtain ⟨q, rest, hq, hd, rfl⟩ := hrs
  have htree : Eval.runTree Eval.evaluate (.list span [node]) (Eval.programFrame name) w = .ok (.ok (some r)) w' :=
    Eval.tryCatch_ok (Eval.bind_ok hr)
  refine ⟨r, w', q, (Eval.bind_ok hprepare).trans htree, ?_, hd⟩
  rw [hp, ← rs.toArray_toList, hq]

/-- A value that is a writable datum can be printed, and running the printed form with a `;` after it gives a list
whose only element is the same datum. -/
theorem run_printed {d : Datum} (hw : Writable d) {s : Store} {r : Ref} (h : Denotes s d r) :
    ∃ text, s.printed .quoted r = some (.ok text) ∧ ∀ name w, ∃ r' w' q,
      Session.run name (text ++ ";") w = .ok (.ok (some r')) w' ∧
        (w'.cell r').payload = .list #[q] ∧ Denotes w'.store d q := by
  refine ⟨_, printed_eq hw h, fun name w => ?_⟩
  have htext : String.ofList d.chars ++ ";" = String.ofList (d.chars ++ [';']) := by
    rw [← String.toList_inj]
    simp
  rw [htext]
  exact run_datum hw name w

namespace Sample

def datum : Datum := .tuple [.dict [(.text "a", .int (-1))], .list [.int 2, .text "b c"]]

def store : Store where
  cells := #[.fresh (.number (.int (-1))), .fresh (.dict 0), .fresh (.number (.int 2)), .fresh (.string (.text "b c")),
    .fresh (.list #[2, 3]), .fresh (.tuple [1, 4])]
  tables := #[[(.text "a", 0)]]
  scopes := #[]

theorem writable_datum : Writable datum := by
  refine .tuple (fun d hd => ?_) (fun es h => nomatch h)
  simp only [mem_cons, not_mem_nil, or_false] at hd
  rcases hd with rfl | rfl
  · refine .dict (by decide) (fun e he => ?_) (fun e he => ?_)
    · obtain rfl := mem_singleton.1 he
      exact ⟨by decide, by decide⟩
    · obtain rfl := mem_singleton.1 he
      exact .int (show (Nat.toDigits 10 1).length ≤ 4300 by decide)
  · refine .list fun d hd => ?_
    simp only [mem_cons, not_mem_nil, or_false] at hd
    rcases hd with rfl | rfl
    · exact .int (show (Nat.toDigits 10 2).length ≤ 4300 by decide)
    · exact .text ⟨by decide, by decide⟩

theorem denotes_datum : Denotes store datum 5 := by
  have hint {n : Int} {r : Ref} (hr : r < store.cells.size) (h : (store.cell r).payload = .number (.int n)) :
      Denotes store (.int n) r := ⟨hr, h⟩
  refine ⟨by decide, [1, 4], rfl, 1, [4], rfl, ?_, 4, [], rfl, ?_, rfl⟩
  · exact ⟨by decide, 0, rfl, by decide, 0, [], rfl, hint (by decide) rfl, rfl⟩
  · exact ⟨by decide, #[2, 3], rfl, 2, [3], rfl, hint (by decide) rfl, 3, [], rfl, ⟨by decide, rfl⟩, rfl⟩

theorem run_printed_datum : ∃ text, store.printed .quoted 5 = some (.ok text) ∧ ∀ name w, ∃ r' w' q,
    Session.run name (text ++ ";") w = .ok (.ok (some r')) w' ∧
      (w'.cell r').payload = .list #[q] ∧ Denotes w'.store datum q :=
  run_printed writable_datum denotes_datum

end Sample

end Utterance

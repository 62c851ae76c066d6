import Utterance.Proofs.Bookkeeping
import Utterance.Proofs.Reports
import Utterance.Proofs.ScanFaults

/-!
# The front end always answers

A scan of a text that ends with a line end comes to lexemes or to a diagnostic, unless it meets an integer with too
many digits; and the lexemes are read as a program or get a diagnostic, unless there is one among them that is no
token. For the second half, such lexemes are replaced by ends of the text (`asToken`): every rule reads the same
afterwards, unless it had a fault before (`Mirrors`), and of lists of tokens it is known that their readings end.
-/

namespace Utterance.Grammar

open Reading List

/-- Every lexeme that is no token replaced by an end of the text at its place. -/
def asToken : Lexeme → Token
  | .token t => t
  | .refused d => ⟨.eof, .absent, d.start.getD default, d.stop.getD default⟩

variable {α β : Type} {lexemes : List Lexeme}

/-- A reading of some lexemes ends with a fault, or it comes to the same as with tokens in the place of all
lexemes. -/
def Mirrors (lexemes : List Lexeme) (p : Reading α) : Prop :=
  ∀ i, (∃ f, p (.ofList lexemes) i = .fault f) ∨
    p (.ofList lexemes) i = p (.ofList ((lexemes.map asToken).map .token)) i

namespace Mirrors

variable {p : Reading α}

theorem bind {f : α → Reading β} (h : Mirrors lexemes p) (hf : ∀ a, Mirrors lexemes (f a)) :
    Mirrors lexemes (p >>= f) := by
  intro i
  rcases h i with ⟨e, h⟩ | h
  · exact .inl ⟨e, by rw [reply_bind, h]⟩
  · rw [reply_bind, reply_bind, ← h]
    cases p (.ofList lexemes) i with
    | ok a j => exact hf a j
    | fail | fault | exhausted => exact .inr rfl

theorem pure (a : α) : Mirrors lexemes (pure a : Reading α) := fun _ => .inr rfl

theorem ite {c : Prop} {_ : Decidable c} {q : Reading α} (hp : c → Mirrors lexemes p) (hq : ¬c → Mirrors lexemes q) :
    Mirrors lexemes (if c then p else q) := by
  split
  · next h => exact hp h
  · next h => exact hq h

theorem advance : Mirrors lexemes advance := fun _ => .inr rfl

theorem bound : Mirrors lexemes bound := fun i => .inr (by simp [Reading.bound, still, reply, Input.ofList])

/-- The lexeme that is current is a token, and the same one in both, or it was replaced. -/
theorem current_cases (lexemes : List Lexeme) (i : Nat) :
    ∃ x, current (.ofList lexemes) i = .ok x i ∧
      current (.ofList ((lexemes.map asToken).map .token)) i = .ok (.token (asToken x)) i := by
  refine ⟨lexemes[i]?.getD (lexemes.getLast?.getD (.token default)), current_eq (by simp [Input.ofList]), current_eq ?_⟩
  simp only [Input.ofList, map_map, getElem?_toArray, getElem?_map, getLast?_map]
  cases lexemes[i]? with
  | some x => rfl
  | none => cases lexemes.getLast? <;> rfl

theorem tokenFor (property : String) : Mirrors lexemes (tokenFor property) := by
  intro i
  obtain ⟨x, h, h'⟩ := current_cases lexemes i
  unfold Reading.tokenFor
  rw [bind_ok h, bind_ok h']
  cases x with
  | token t => exact .inr rfl
  | refused d => exact .inl ⟨_, rfl⟩

theorem token : Mirrors lexemes token := tokenFor _

theorem isKind (kind : Token.Kind) : Mirrors lexemes (isKind kind) := token.bind fun _ => .pure _

theorem isWord (word : String) : Mirrors lexemes (isWord word) := (tokenFor _).bind fun _ => .pure _

theorem start : Mirrors lexemes start := by
  intro i
  obtain ⟨x, h, h'⟩ := current_cases lexemes i
  unfold Reading.start
  rw [bind_ok h, bind_ok h']
  cases x <;> exact .inr rfl

theorem stop : Mirrors lexemes stop := by
  intro i
  obtain ⟨x, h, h'⟩ := current_cases lexemes i
  unfold Reading.stop
  rw [bind_ok h, bind_ok h']
  cases x <;> exact .inr rfl

theorem refuse (details : String) : Mirrors lexemes (refuse details : Reading α) :=
  start.bind fun _ => stop.bind fun _ _ => .inr rfl

theorem skipKind (kind : Token.Kind) : Mirrors lexemes (skipKind kind) :=
  (isKind kind).bind fun _ => .ite (fun _ => advance.bind fun _ => .pure _) fun _ => .pure _

theorem reword (h : Mirrors lexemes p) (details : String) : Mirrors lexemes (p.reword details) := by
  intro i
  rw [reply_reword, reply_reword]
  rcases h i with ⟨f, h⟩ | h
  · rw [h]
    exact .inl ⟨f, rfl⟩
  · rw [← h]
    cases p (.ofList lexemes) i with
    | fail d j =>
      dsimp only
      split
      · exact refuse details j
      · exact .inr rfl
    | _ => exact .inr rfl

theorem attempt {p : Reading α} (h : Mirrors lexemes p) : Mirrors lexemes p.attempt := by
  intro i
  rw [reply_attempt, reply_attempt]
  rcases h i with ⟨f, h⟩ | h
  · rw [h]
    exact .inl ⟨f, rfl⟩
  · rw [h]
    exact .inr rfl

theorem skipAll (kind : Token.Kind) (n : Nat) : Mirrors lexemes (skipAll kind n) := by
  induction n with
  | zero => exact .pure _
  | succ n ih => exact (skipKind kind).bind fun _ => .ite (fun _ => ih.bind fun _ => .pure _) fun _ => .pure _

theorem newlines : Mirrors lexemes newlines := bound.bind fun n => skipAll _ n

theorem passing (h : Passing p) : Mirrors lexemes p := by
  cases h with
  | kind => exact (isKind _).bind fun _ => .ite (fun _ => advance) fun _ => refuse _
  | word => exact (isWord _).bind fun _ => .ite (fun _ => advance) fun _ => refuse _
  | name =>
    exact (isKind _).bind fun _ => .ite (fun _ => token.bind fun _ => advance.bind fun _ => .pure _) fun _ => refuse _

theorem skipping {p : Reading Bool} (h : Skipping p) : Mirrors lexemes p := by
  cases h with
  | kind => exact skipKind _
  | word => exact (isWord _).bind fun _ => .ite (fun _ => advance.bind fun _ => .pure _) fun _ => .pure _

theorem composed {S : Part → Prop} {cur : Option Token} {p : Recursion → Reading α} (hp : Composed S cur p)
    {rec : Recursion} (h : ∀ part, Mirrors lexemes (rec part)) : Mirrors lexemes (p rec) := by
  induction hp with
  | part => exact h _
  | pure a => exact .pure a
  | refuse details => exact refuse details
  | newlines => exact newlines
  | passing hp => exact passing hp
  | bind _ _ ih ihf => exact ih.bind ihf
  | bound _ ih => exact bound.bind ih
  | start _ ih => exact start.bind ih
  | stop _ ih => exact stop.bind ih
  | token _ ih => exact (tokenFor _).bind ih
  | advance _ _ ih => exact advance.bind fun _ => ih
  | pass hp _ ih => exact (passing hp).bind ih
  | skip hp _ _ ih ih' =>
    refine (skipping hp).bind fun b => ?_
    cases b with
    | false => exact ih'
    | true => exact ih
  | operator _ _ ih ih' =>
    exact (isWord _).bind fun _ => .ite (fun _ => token.bind fun op => advance.bind fun _ => ih op) fun _ => ih'
  | ite _ _ ih ih' => exact .ite ih ih'
  | reword details _ ih => exact ih.reword details
  | attempt _ ih => exact ih.attempt

theorem read_mirrors (n : Nat) (part : Part) : Mirrors lexemes (read n part) := by
  have all {α : Type} {p : Recursion → Reading α} {rec : Recursion} (hp : Composed AnyPart none p)
      (h : ∀ part, Mirrors lexemes (rec part)) : Mirrors lexemes (p rec) := composed hp h
  induction n generalizing part with
  | zero => exact fun _ => .inr rfl
  | succ n ih =>
    cases part with
    | statements => exact (all (composed_statements trivial) ih).bind fun _ => .pure _
    | statement => exact (all (composed_statement trivial) ih).bind fun _ => .pure _
    | logic => exact all (composed_logic trivial) ih
    | factor => exact all composed_factor ih

end Mirrors

/-- Lexemes are read like the tokens in their place, unless that ends with a fault. -/
theorem parse_mirrors (lexemes : List Lexeme) :
    (∃ f, parse lexemes = .error (.fault f)) ∨ parse lexemes = parse ((lexemes.map asToken).map .token) := by
  have hlength : ((lexemes.map asToken).map Lexeme.token).length = lexemes.length := by simp
  unfold parse
  rw [hlength]
  have hprogram : Composed AnyPart none program := composed_program trivial
  rcases Mirrors.composed hprogram (Mirrors.read_mirrors (depthFor lexemes.length)) 0 with ⟨f, h⟩ | h
  · exact .inl ⟨f, by rw [h]⟩
  · exact .inr (by rw [h])

theorem map_asToken (h : ∀ d, .refused d ∉ lexemes) : (lexemes.map asToken).map .token = lexemes := by
  rw [map_map]
  refine (map_congr_left (g := id) fun x hx => ?_).trans (map_id _)
  cases x with
  | token t => rfl
  | refused d => exact absurd hx (h d)

/-- Lexemes with an end of the text among them are read as a program or get a diagnostic for their syntax, unless
there is one among them that is no token. -/
theorem parse_answers (h : ∃ t, .token t ∈ lexemes ∧ t.kind = .eof) :
    (∃ tree, parse lexemes = .ok tree) ∨
    (∃ start stop details, parse lexemes = .error (.diagnostic (.invalidSyntax start stop details))) ∨
    (∃ f, parse lexemes = .error (.fault f)) ∧ ∃ d, .refused d ∈ lexemes := by
  obtain ⟨e, he, hkind⟩ := h
  have hends := @parse_ends (lexemes.map asToken) ⟨e, mem_map.2 ⟨_, he, rfl⟩, hkind⟩
  have hanswer (heq : parse lexemes = parse ((lexemes.map asToken).map .token)) :
      (∃ tree, parse lexemes = .ok tree) ∨
      ∃ start stop details, parse lexemes = .error (.diagnostic (.invalidSyntax start stop details)) := by
    rw [heq]
    refine hends.imp_right fun ⟨d, hd⟩ => ?_
    obtain ⟨start, stop, details, rfl⟩ := parse_syntactic hd
    exact ⟨start, stop, details, hd⟩
  by_cases hrefused : ∃ d, .refused d ∈ lexemes
  · rcases parse_mirrors lexemes with hf | heq
    · exact .inr (.inr ⟨hf, hrefused⟩)
    · exact (hanswer heq).imp_right .inl
  · exact (hanswer (by rw [map_asToken (not_exists.1 hrefused)])).imp_right .inl

end Utterance.Grammar

namespace Utterance

open Token Grammar

theorem endsLine_start (name text : String) : EndsLine (Cursor.start ⟨name, text ++ "\n"⟩).rest := by
  intro c hc
  simp only [Cursor.start, String.toList_append] at hc
  rw [List.getLast?_append_of_ne_nil _ (by decide)] at hc
  exact (Option.some.inj hc).symm

theorem infix_of_suffix {text digits rest : List Char} (hd : ∀ c ∈ digits, c.isDigit = true) (hne : digits ≠ [])
    (h : digits ++ rest <:+ text ++ ['\n']) : digits <:+: text := by
  obtain ⟨before, heq⟩ := h
  rcases List.eq_nil_or_concat rest with rfl | ⟨init, last, rfl⟩
  · -- the last digit would be the line end
    obtain ⟨init, last, rfl⟩ := (List.eq_nil_or_concat digits).resolve_left hne
    have hlast : last = '\n' := by
      have := congrArg List.getLast? heq
      simpa using this
    have := hd last (by simp)
    rw [hlast] at this
    cases this
  · refine ⟨before, init, ?_⟩
    have : (before ++ digits ++ init) ++ [last] = text ++ ['\n'] := by simpa using heq
    exact (List.append_inj' this rfl).1

/-- The front end answers for every text with a line end at its end. The scan gives lexemes or a diagnostic; it has a
fault exactly if it comes to an integer with more digits than can be read, which stands in the text, and the fault
says how many they are. The lexemes are read as a program or get a diagnostic for their syntax; there is a fault only
if one of them is no token, which the scan found at a pattern that is not closed. -/
theorem frontEnd_answers (name text : String) :
    (∀ fault, (∃ cursor, scan ⟨name, text ++ "\n"⟩ = .error (.fault ⟨fault, cursor⟩)) ↔
      ∃ xs last cur digits, ScansTo none (.start ⟨name, text ++ "\n"⟩) xs last cur ∧ LongInteger digits cur.rest ∧
        digits <:+: text.toList ∧ fault = .tooManyDigitsIn digits.length) ∧
    ∀ lexemes, scan ⟨name, text ++ "\n"⟩ = .ok lexemes →
      (∃ tree, parse lexemes = .ok tree) ∨
      (∃ start stop details, parse lexemes = .error (.diagnostic (.invalidSyntax start stop details))) ∨
      (∃ fault, parse lexemes = .error (.fault fault)) ∧ ∃ d ys zs last cur, lexemes = ys ++ .refused d :: zs ∧
        ScansTo none (.start ⟨name, text ++ "\n"⟩) ys last cur ∧ UnclosedPattern cur.rest := by
  have hline := endsLine_start name text
  refine ⟨fun fault => ⟨?_, ?_⟩, fun lexemes h => ?_⟩
  · rintro ⟨cursor, h⟩
    obtain ⟨xs, last, cur, digits, hway, hlong, hf⟩ := scanRest_fault hline h
    refine ⟨xs, last, cur, digits, hway, hlong, ?_, hf⟩
    obtain ⟨rest, hrest, hdigits, -, hlimit⟩ := hlong
    have hsuffix := hway.suffix
    rw [hrest, Cursor.start, String.toList_append] at hsuffix
    refine infix_of_suffix hdigits ?_ hsuffix
    rintro rfl
    cases hlimit
  · rintro ⟨xs, last, cur, digits, hway, hlong, -, hf⟩
    obtain ⟨⟨f, cursor⟩, hs, hstuck⟩ := fault_of_longInteger hway hlong
    exact ⟨cursor, by rw [scan_eq, hs, hf, ← hstuck]⟩
  · obtain ⟨init, e, rfl, he, -⟩ := scanRest_ends h
    refine (parse_answers ⟨e, by simp, he⟩).imp_right (Or.imp_right ?_)
    rintro ⟨hfault, d, hd⟩
    refine ⟨hfault, ?_⟩
    obtain ⟨ys, zs, last, cur, hway, heq, hopen⟩ := scanRest_refused hline h hd
    exact ⟨d, ys, zs, last, cur, heq, hway, hopen⟩

/-- A pattern without its closing quote is found by the scan, and reading it ends with a fault. -/
theorem frontEnd_answers_unclosed :
    ∃ lexemes, scan ⟨"main", "show r\"a" ++ "\n"⟩ = .ok lexemes ∧ (∃ fault, parse lexemes = .error (.fault fault)) ∧
      ∃ d ys zs last cur, lexemes = ys ++ .refused d :: zs ∧
        ScansTo none (.start ⟨"main", "show r\"a" ++ "\n"⟩) ys last cur ∧ UnclosedPattern cur.rest := by
  have run : ∃ lexemes fault, scan ⟨"main", "show r\"a" ++ "\n"⟩ = .ok lexemes ∧
      parse lexemes = .error (.fault fault) :=
    ⟨_, _, rfl, rfl⟩
  obtain ⟨lexemes, fault, hscan, hfault⟩ := run
  refine ⟨lexemes, hscan, ?_⟩
  rcases (frontEnd_answers "main" "show r\"a").2 lexemes hscan with ⟨tree, h⟩ | ⟨start, stop, details, h⟩ | h
  · rw [hfault] at h
    cases h
  · rw [hfault] at h
    cases h
  · exact h

end Utterance

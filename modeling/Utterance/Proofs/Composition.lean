import Utterance.Proofs.Readings

/-!
# How rules are composed

Every rule of the grammar is put together from small readings and from the parts below it (`Composed`). What is kept
by the ways of putting readings together is therefore kept by all rules. `Composed` also says what is needed to see
that readings end: before a rule has passed a token it reads only some of the parts, and it goes on from a token only
if that is known not to be the end of the text.
-/

namespace Utterance.Grammar

open Reading

open Token (Kind)

variable {closing : Kind} {details word : String}

variable {p item : Recursion → Reading α}

/-- Small readings that pass a token or refuse. -/
inductive Passing : {α : Type} → Reading α → Prop
  | kind {kind : Kind} {details : String} : kind ≠ .eof → Passing (expectKind kind details)
  | word {word details : String} : Passing (expectWord word details)
  | name {details : String} : Passing (identifier details)

/-- Small readings that pass a token if it is there, and say so. -/
inductive Skipping : Reading Bool → Prop
  | kind {kind : Kind} : kind ≠ .eof → Skipping (skipKind kind)
  | word {word : String} : Skipping (skipWord word)

abbrev AnyPart (_ : Part) : Prop := True

/-- A reading is composed of small readings and of parts. Where it begins stands the token `cur`, if one is given, and
before it has passed a token it reads only parts of `S`. -/
inductive Composed : (Part → Prop) → Option Token → {α : Type} → (Recursion → Reading α) → Prop
  | part {S cur part} : S part → Composed S cur fun rec => rec part
  | pure {S cur α} (a : α) : Composed S cur fun _ => pure a
  | refuse {S cur α} (details : String) : Composed S cur fun _ => (refuse details : Reading α)
  | newlines {S cur} : Composed S cur fun _ => newlines
  | passing {S cur α} {p : Reading α} : Passing p → Composed S cur fun _ => p
  | bind {S cur α β} {p : Recursion → Reading α} {f : Recursion → α → Reading β} : Composed S cur p →
    (∀ a, Composed S none fun rec => f rec a) → Composed S cur fun rec => p rec >>= f rec
  | bound {S cur α} {f : Recursion → Nat → Reading α} : (∀ n, Composed S cur fun rec => f rec n) →
    Composed S cur fun rec => bound >>= f rec
  | start {S cur α} {f : Recursion → Position → Reading α} : (∀ p, Composed S cur fun rec => f rec p) →
    Composed S cur fun rec => start >>= f rec
  | stop {S cur α} {f : Recursion → Position → Reading α} : (∀ p, Composed S cur fun rec => f rec p) →
    Composed S cur fun rec => stop >>= f rec
  /-- The current token is seen. -/
  | token {S cur α} {property : String} {f : Recursion → Token → Reading α} :
      (∀ t, Composed S (some t) fun rec => f rec t) →
    Composed S cur fun rec => tokenFor property >>= f rec
  | advance {S t α} {f : Recursion → Unit → Reading α} : t.kind ≠ .eof → Composed AnyPart none (fun rec => f rec ()) →
    Composed S (some t) fun rec => advance >>= f rec
  /-- After a token was passed, every part may be read. -/
  | pass {S cur α β} {p : Reading α} {f : Recursion → α → Reading β} : Passing p →
    (∀ a, Composed AnyPart none fun rec => f rec a) → Composed S cur fun rec => p >>= f rec
  | skip {S cur α} {p : Reading Bool} {f : Recursion → Bool → Reading α} : Skipping p →
    Composed AnyPart none (fun rec => f rec true) → Composed S cur (fun rec => f rec false) →
    Composed S cur fun rec => p >>= f rec
  /-- A word is passed as an operator. -/
  | operator {S cur α} {word : String} {f : Recursion → Token → Reading α} {q : Recursion → Reading α} :
    (∀ op, Composed AnyPart none fun rec => f rec op) → Composed S cur q → Composed S cur fun rec => do
      if ← isWord word then
        let op ← token
        advance
        f rec op
      else q rec
  | ite {S cur α} {c : Prop} {_ : Decidable c} {p q : Recursion → Reading α} : (c → Composed S cur p) →
    (¬c → Composed S cur q) → Composed S cur fun rec => if c then p rec else q rec
  | reword {S cur α} {p : Recursion → Reading α} (details : String) : Composed S cur p →
    Composed S cur fun rec => (p rec).reword details
  | attempt {S cur α} {p : Recursion → Reading α} : Composed S cur p → Composed S cur fun rec => (p rec).attempt

variable {S : Part → Prop} {cur : Option Token} {α : Type}

theorem Composed.test {δ : Type} {property : String} {g : Token → δ} {f : Recursion → δ → Reading α}
    (h : ∀ t, Composed S (some t) fun rec => f rec (g t)) :
    Composed S cur fun rec => (tokenFor property >>= fun t => Pure.pure (g t)) >>= f rec := by
  have heq (rec : Recursion) : ((tokenFor property >>= fun t => Pure.pure (g t)) >>= f rec) =
      tokenFor property >>= fun t => f rec (g t) := bind_pure_bind _ _ _
  rw [funext heq]
  exact .token h

theorem Composed.expect {kind : Kind} (hk : (kind == .eof) = false)
    (h : Composed AnyPart none p) : Composed S cur fun rec => expectKind kind details >>= fun _ => p rec :=
  .pass (.kind (ne_of_beq_false hk)) fun _ => h

theorem Composed.say (h : Composed AnyPart none p) :
    Composed S cur fun rec => expectWord word details >>= fun _ => p rec :=
  .pass .word fun _ => h

theorem Composed.inner {part : Part} {f : Recursion → Node → Reading α}
    (h : ∀ n, Composed AnyPart none fun rec => f rec n) : Composed AnyPart cur fun rec => rec part >>= f rec :=
  .bind (.part trivial) h

theorem composed_many {more : Reading Bool} (hm : Skipping more)
    (h : Composed AnyPart none item) : Composed S cur fun rec => more.many (item rec) := by
  refine .bound fun n => ?_
  have all (n : Nat) {S cur} : Composed S cur fun rec => manyAfter more (item rec) n := by
    induction n generalizing S cur with
    | zero => exact .pure _
    | succ n ih => exact .skip hm (.bind h fun _ => .bind ih fun _ => .pure _) (.pure _)
  exact all n

theorem composed_commaSeparated (h : Composed S cur item)
    (h' : Composed AnyPart none item) : Composed S cur fun rec => (item rec).commaSeparated :=
  .bind h fun _ => .bind (composed_many (.kind (by decide)) h') fun _ => .pure _

theorem composed_names (details : String) : Composed S cur fun _ => (identifier details).commaSeparated :=
  composed_commaSeparated (.passing .name) (.passing .name)

theorem composed_operators {operand : Recursion → Reading Node} {isOperator : Token → Bool}
    (hop : ∀ t, isOperator t = true → t.kind ≠ .eof) (h : Composed S cur operand)
    (h' : Composed AnyPart none operand) : Composed S cur fun rec => operators (operand rec) isOperator := by
  have after (n : Nat) (left : Node) {S cur} : Composed S cur fun rec =>
      operatorsAfter (operand rec) isOperator n left := by
    induction n generalizing left S cur with
    | zero => exact .pure _
    | succ n ih =>
      exact .token fun t => .ite (fun ht => .advance (hop t ht) (.bind h' fun _ => ih _)) fun _ => .pure _
  exact .bind h fun left => .bound fun n => after n left

theorem ne_eof_of_isOneOf {kinds : List Kind} (hk : kinds.contains .eof = false) (t : Token)
    (h : isOneOf kinds t = true) : t.kind ≠ .eof := by
  intro ht
  rw [isOneOf, ht, hk] at h
  cases h

variable {t : Token}

theorem ne_eof_of_isKeyword (h : t.isKeyword word = true) : t.kind ≠ .eof := by
  rw [kind_of_isKeyword h]
  decide

section

variable (h : S .factor)

include h

theorem composed_term : Composed S cur term :=
  composed_operators (ne_eof_of_isOneOf (by decide)) (.part h) (.part trivial)

theorem composed_arithmetic : Composed S cur arithmetic :=
  composed_operators (ne_eof_of_isOneOf (by decide)) (composed_term h) (composed_term trivial)

theorem composed_setOperation : Composed S cur setOperation :=
  composed_operators (ne_eof_of_isOneOf (by decide)) (composed_arithmetic h) (composed_arithmetic trivial)

theorem composed_comparison : Composed S cur comparison :=
  composed_operators (ne_eof_of_isOneOf (by decide)) (composed_setOperation h) (composed_setOperation trivial)

theorem composed_logic : Composed S cur logic := by
  refine .operator (fun op => .inner fun _ => .pure _) (.reword _ ?_)
  refine composed_operators (fun t ht => ?_) (composed_comparison h) (composed_comparison trivial)
  rcases Bool.or_eq_true_iff.1 ht with ht | ht
  · exact ne_eof_of_isKeyword ht
  · exact ne_eof_of_isKeyword ht

end

theorem composed_bracketed (h : S .logic) (hc : closing ≠ .eof) (details : String) :
    Composed S cur fun rec => bracketed rec closing details :=
  .skip (.kind hc) (.pure _) (.bind (composed_commaSeparated (.part h) (.part trivial)) fun _ =>
    .pass (.kind hc) fun _ => .pure _)

theorem composed_collection {opening : Kind} (ho : opening ≠ .eof) (hc : closing ≠ .eof) {expected : String}
    {make : Span → List Node → Node} : Composed S cur fun rec => collection rec opening closing expected details make :=
  .start fun _ => .pass (.kind ho) fun _ => .bind (composed_bracketed trivial hc _) fun _ => .stop fun _ => .pure _

theorem composed_clause : Composed S cur clause :=
  .pass .name fun _ => .say <| .inner fun _ => .bind (composed_many .word (.part trivial)) fun _ => .pure _

theorem composed_list : Composed S cur list :=
  .start fun _ => .expect rfl <| .skip (.kind (by decide)) (.stop fun _ => .pure _)
    (.inner fun _ => .test fun _ => .ite
      (fun _ => .bind (composed_many .word composed_clause) fun _ => .expect rfl <| .stop fun _ => .pure _)
      fun _ => .bind (composed_many (.kind (by decide)) (.part trivial)) fun _ => .expect rfl <| .stop fun _ => .pure _)

theorem composed_pair (h : S .logic) : Composed S cur pair :=
  .bind (.part h) fun _ => .expect rfl <| .inner fun _ => .pure _

theorem composed_dict : Composed S cur dict :=
  .start fun _ => .expect rfl <| .skip (.kind (by decide)) (.stop fun _ => .pure _)
    (.bind (composed_commaSeparated (composed_pair trivial) (composed_pair trivial)) fun _ =>
      .expect rfl <| .stop fun _ => .pure _)

theorem composed_parenthesised : Composed S cur parenthesised :=
  .expect rfl <| .inner fun _ => .expect rfl <| .pure _

theorem composed_lambda : Composed S cur lambda :=
  have rest {first params cur} : Composed AnyPart cur fun rec => (do
      expectKind .arrow "Expected '=>'"
      let body ← rec .logic
      return Node.lambda ⟨first, ← stop⟩ params body) :=
    .expect rfl <| .inner fun _ => .stop fun _ => .pure _
  .start fun _ => .say <| .test fun _ => .ite (fun _ => .bind (composed_names _) fun _ => rest)
    fun _ => .bind (.pure _) fun _ => rest

theorem composed_body : Composed AnyPart cur body :=
  .skip (.kind (by decide)) (.inner fun _ => .say <| .pure _) (.part trivial)

theorem composed_alternatives (n : Nat) : Composed AnyPart cur fun rec => alternatives rec n := by
  induction n generalizing cur with
  | zero => exact .pure _
  | succ n ih =>
    refine .skip .word (.skip .word ?_ ?_) (.pure _)
    · exact .inner fun _ => .expect rfl <| .skip (.kind (by decide))
        (.inner fun _ => .bind ih fun _ => .pure _) ih
    · exact .expect rfl <| .skip (.kind (by decide)) (.inner fun _ => .pure _) (.pure _)

theorem composed_conditional : Composed S cur conditional :=
  .say <| .inner fun _ => .expect rfl <| .skip (.kind (by decide))
    (.inner fun _ => .bound fun n => .bind (composed_alternatives n) fun _ => .say <| .pure _)
    (.inner fun _ => .pure _)

theorem composed_counting : Composed S cur counting :=
  have rest {name first last step cur} : Composed AnyPart cur fun rec => (do
      colon
      return Node.countTo name first last step (← body rec)) :=
    .expect rfl <| .bind composed_body fun _ => .pure _
  .pass .name fun _ => .say <| .inner fun _ => .say <| .inner fun _ =>
    .skip .word (.inner fun _ => .bind (.pure _) fun _ => rest) (.bind (.pure _) fun _ => rest)

theorem composed_cycle : Composed S cur cycle :=
  .say <| .skip .word
    (.pass .name fun _ => .say <| .inner fun _ => .expect rfl <| .test fun _ =>
      .ite (fun _ => .bind composed_body fun _ => .pure _) fun _ => composed_counting)
    composed_counting

theorem composed_whileLoop : Composed S cur whileLoop :=
  .say <| .inner fun _ => .expect rfl <| .bind composed_body fun _ => .pure _

theorem composed_repeatLoop : Composed S cur repeatLoop :=
  .say <| .inner fun _ => .expect rfl <| .bind composed_body fun _ => .pure _

theorem composed_parameters : Composed S cur fun _ => parameters :=
  .test fun _ => .ite (fun _ => .bind (composed_names _) fun _ => .expect rfl <| .pure _)
    fun _ => .expect rfl <| .pure _

theorem composed_functionDefinition : Composed S cur functionDefinition :=
  have rest {name cur} : Composed AnyPart cur fun rec => (do
      expectKind .lparen "Expected '('"
      let params ← parameters
      colon
      return Node.define name params (← body rec)) :=
    .expect rfl <| .bind composed_parameters fun _ => .expect rfl <| .bind composed_body fun _ => .pure _
  .say <| .test fun _ => .ite (fun _ => .pass .name fun _ => .bind (.pure _) fun _ => rest)
    fun _ => .bind (.pure _) fun _ => rest

theorem composed_handlerName : Composed S cur fun _ => handlerName :=
  .skip .word (.pass .name fun _ => .pure _) (.pure _)

theorem composed_attemptHandle : Composed S cur attemptHandle :=
  .say <| .expect rfl <| .skip (.kind (by decide))
    (.inner fun _ => .say <| .bind .newlines fun _ => .say <| .bind composed_handlerName fun _ =>
      .expect rfl <| .bind composed_body fun _ => .pure _)
    (.inner fun _ => .say <| .bind composed_handlerName fun _ => .expect rfl <| .inner fun _ => .pure _)

theorem composed_caseBody : Composed AnyPart cur caseBody :=
  .skip (.kind (by decide)) (.inner fun _ => .pure _)
    (.inner fun _ => .skip (.kind (by decide)) (.pure _) (.pure _))

theorem composed_caseClause : Composed AnyPart cur caseClause :=
  .inner fun _ => .expect rfl <| .bind composed_caseBody fun _ => .bind .newlines fun _ => .pure _

theorem composed_switch : Composed S cur switch :=
  have rest {subject cases default cur} : Composed AnyPart cur fun _ => (do
      let _ ← newlines
      expectWord "end" "Expected 'whether', 'default', or 'end'"
      return Node.select subject cases default) :=
    .bind .newlines fun _ => .say <| .pure _
  .say <| .inner fun _ => .expect rfl <| .expect rfl <| .bind .newlines fun _ =>
    .bind (composed_many .word composed_caseClause) fun _ => .skip .word
      (.expect rfl <| .bind composed_caseBody fun _ => .bind (.pure _) fun _ => rest)
      (.bind (.pure _) fun _ => rest)

theorem composed_atom : Composed S cur atom := by
  refine .token fun t => ?_
  have literal {n : Node} (hk : t.kind ≠ .eof) : Composed S (some t) fun _ => (do advance; return n) :=
    .advance hk (.pure _)
  split
  case h_6 => exact composed_parenthesised
  case h_7 => exact composed_list
  case h_8 => exact composed_collection (by decide) (by decide)
  case h_9 => exact composed_dict
  case h_10 => exact composed_collection (by decide) (by decide)
  case h_11 =>
    refine .ite (fun hw => literal (ne_eof_of_isKeyword hw)) fun _ =>
      .ite (fun hw => literal (ne_eof_of_isKeyword hw)) fun _ => ?_
    refine .ite (fun _ => composed_conditional) fun _ => .ite (fun _ => composed_cycle) fun _ => ?_
    refine .ite (fun _ => composed_whileLoop) fun _ => .ite (fun _ => composed_repeatLoop) fun _ => ?_
    refine .ite (fun _ => composed_functionDefinition) fun _ => .ite (fun _ => composed_lambda) fun _ => ?_
    exact .ite (fun _ => composed_attemptHandle) fun _ => .ite (fun _ => composed_switch) fun _ => .refuse _
  all_goals next hk => exact literal (by rw [hk]; decide)

theorem composed_elementsAfter (n : Nat) (collection : Node) :
    Composed S cur fun rec => elementsAfter rec n collection := by
  induction n generalizing S cur collection with
  | zero => exact .pure _
  | succ n ih => exact .skip (.kind (by decide)) (.bind composed_atom fun _ => ih _) (.pure _)

theorem composed_call : Composed S cur call :=
  .bind composed_atom fun n => .skip (.kind (by decide))
    (.bind (composed_bracketed trivial (by decide) _) fun _ => .pure _)
      (.bound fun fuel => composed_elementsAfter fuel n)

theorem composed_factor : Composed S cur factor := by
  refine .token fun t => .ite (fun ht => .advance (fun hk => ?_) (.inner fun _ => .pure _)) fun _ =>
    composed_call
  rw [hk] at ht
  cases ht

theorem composed_expression (h : S .logic) : Composed S cur expression :=
  .skip .word
    (.inner fun _ => .say <| .pass .name fun _ => .skip (.kind (by decide))
      (.inner fun _ => .pure _) (.pure _))
    (.skip .word (.inner fun _ => .say <| .pass .name fun _ => .pure _)
      (.skip .word (.inner fun _ => .start fun _ => .stop fun _ => .pure _) (.part h)))

theorem composed_modulePath : Composed S cur fun _ => modulePath :=
  .pass .name fun _ => .bind (composed_many (.kind (by decide)) (.passing .name)) fun _ => .start fun _ => .pure _

theorem composed_bringItem (details : String) : Composed S cur fun _ => bringItem details :=
  .pass .name fun _ => .skip .word (.pass .name fun _ => .pure _) (.pure _)

/-- The first word is passed unseen, so that it must not be the end of the text. -/
theorem composed_bring (ht : t.kind ≠ .eof) : Composed S (some t) fun _ => bring :=
  .advance ht (.skip .word (.bind composed_modulePath fun _ => .pure _)
    (.bind (composed_bringItem _) fun _ => .bind (composed_many (.kind (by decide)) (composed_bringItem _)) fun _ =>
      .say <| .bind composed_modulePath fun _ => .pure _))

theorem composed_share (ht : t.kind ≠ .eof) : Composed S (some t) fun _ => share :=
  .start fun _ => .advance ht (.bind (composed_names _) fun _ => .start fun _ => .pure _)

theorem composed_statement (h : S .logic) : Composed S cur statement := by
  refine .start fun from_ => .test fun t => .ite (fun hw =>
    .bind (composed_bring (ne_eof_of_isKeyword hw)) fun _ => .pure _)
    fun _ => .test fun t => .ite (fun hw => .bind (composed_share (ne_eof_of_isKeyword hw)) fun _ => .pure _) fun _ =>
      .skip .word (.bind (.attempt (composed_expression trivial)) fun result => ?_)
        (.skip .word (.start fun _ => .pure _)
        (.skip .word (.start fun _ => .pure _) (.bind (.reword _ (composed_expression h)) fun _ => .pure _)))
  cases result <;> exact .start fun _ => .pure _

theorem composed_statementsAfter (h : S .statement) (n : Nat) : Composed S cur fun rec => statementsAfter rec n := by
  induction n generalizing cur with
  | zero => exact .pure _
  | succ n ih =>
    refine .bind .newlines fun _ => .ite (fun _ => .pure _) fun _ => .bind (.attempt (.part h)) fun result => ?_
    cases result with
    | ok s => exact .bind ih fun _ => .pure _
    | error reversed => exact .pure _

theorem composed_statements (h : S .statement) : Composed S cur statements :=
  .start fun _ => .bind .newlines fun _ => .test fun _ => .ite (fun _ => .stop fun _ => .pure _) fun _ =>
    .bind (.part h) fun _ => .bound fun n => .bind (composed_statementsAfter h n) fun _ => .stop fun _ => .pure _

theorem composed_program (h : S .statement) : Composed S cur program :=
  .bind (composed_statements h) fun _ => .test fun _ => .ite (fun _ => .pure _) fun _ => .start fun _ => .stop fun _ =>
    .pure _

end Utterance.Grammar

import Utterance.Proofs.Leaves

/-!
# Every token has its part in the tree

The rules of the grammar account for the tokens that they pass: what a rule has read holds the literals and names
between the index where it began and the one where it ended, as `Account` says (`Yields`). There is one lemma for each
way to combine readings, and from these one for each rule. For a whole program, see `parse_accounts`.
-/

namespace Utterance.Grammar

open Reading Node List Token

open Token (Kind)

variable {closing : Kind} {isOperator : Token → Bool} {operand : Reading Node}

variable {ts : List Token} {α β : Type} {i j : Nat}

def Silent (ts : List Token) (p : Reading α) : Prop :=
  ∀ i a j, p (.ofTokens ts) i = .ok a j → Account ts i j []

namespace Silent

theorem of_still {p : Reading α} (h : ∀ i a j, p (.ofTokens ts) i = .ok a j → j = i) : Silent ts p := by
  intro i a j hp
  rw [h i a j hp]
  exact .nil i

theorem isKind (kind : Kind) : Silent ts (isKind kind) := .of_still fun _ _ _ h => (isKind_elim h).1

theorem isWord (word : String) : Silent ts (isWord word) := .of_still fun _ _ _ h => (isWord_elim h).1

theorem bound : Silent ts bound := .of_still fun i a j h => by
  cases h
  rfl

end Silent

/-- Kinds of tokens that stand for no leaf, whatever they hold. -/
def silentKind (kind : Kind) : Bool := !([Kind.int, .float, .string, .regex, .identifier, .keyword].contains kind)

def silentWord (word : String) : Bool := !(["true", "false", "show"].contains word)

variable {t : Token}

theorem isSilent_of_kind (h : silentKind t.kind = true) : t.isSilent = true := by
  unfold isSilent isLeaf isKeyword
  revert h
  cases t.kind <;> simp [silentKind]

theorem isSilent_of_word {word : String} (h : t.isKeyword word = true) (hw : silentWord word = true) :
    t.isSilent = true := by
  unfold isSilent isLeaf
  simp only [isKeyword_of_isKeyword h, kind_of_isKeyword h]
  simpa [silentWord, and_assoc] using hw

theorem account_of_silent (h : (tokenAt ts i).isSilent = true) : Account ts i (i + 1) [] := .silent h (.nil _)

theorem Input.At.eq_tokenAt (h : (Input.ofTokens ts).At i t) : t = tokenAt ts i := h.unique (at_tokenAt ts i)

namespace Silent

theorem expectKind {kind : Kind} (hk : silentKind kind = true) (details : String) :
    Silent ts (expectKind kind details) := by
  intro i u j h
  obtain ⟨rfl, t, ht, rfl⟩ := expectKind_elim h
  cases ht.eq_tokenAt
  exact account_of_silent (isSilent_of_kind hk)

theorem expectWord {word : String} (hw : silentWord word = true) (details : String) :
    Silent ts (expectWord word details) := by
  intro i u j h
  obtain ⟨rfl, t, ht, hword⟩ := expectWord_elim h
  cases ht.eq_tokenAt
  exact account_of_silent (isSilent_of_word hword hw)

theorem skipKind {kind : Kind} (hk : silentKind kind = true) : Silent ts (skipKind kind) := by
  intro i b j h
  obtain ⟨t, ht, rfl, rfl⟩ := skipKind_elim h
  cases ht.eq_tokenAt
  split
  · next hkind => exact account_of_silent (isSilent_of_kind (eq_of_beq hkind ▸ hk))
  · exact .nil i

theorem skipWord {word : String} (hw : silentWord word = true) : Silent ts (skipWord word) := by
  intro i b j h
  obtain ⟨t, ht, rfl, rfl⟩ := skipWord_elim h
  cases ht.eq_tokenAt
  split
  · next hword => exact account_of_silent (isSilent_of_word hword hw)
  · exact .nil i

theorem newlines : Silent ts newlines := by
  suffices h : ∀ n, Silent ts (skipAll .newline n) from fun i a j hp => by
    obtain ⟨n, k, hn, hp⟩ := bind_elim hp
    cases hn
    exact h _ i a j hp
  intro n
  induction n with
  | zero =>
    refine .of_still fun i a j h => ?_
    cases h
    rfl
  | succ n ih =>
    intro i a j hp
    obtain ⟨b, k, hb, hp⟩ := bind_elim hp
    have hskip : Account ts i k [] := skipKind (by decide) i b k hb
    split at hp
    · obtain ⟨c, l, hc, hp⟩ := bind_elim hp
      cases hp
      exact hskip.trans (ih k c j hc)
    · cases hp
      exact hskip

end Silent

/-! ### Ways to combine readings -/

/-- What is read from an index on accounts for the tokens that are passed: its leaves are some that are known before,
and those of the tokens. -/
def Yields (ts : List Token) (i : Nat) (known : List Token) (p : Reading α) (leaves : α → List Token) : Prop :=
  ∀ a j, p (.ofTokens ts) i = .ok a j → ∃ ls, Account ts i j ls ∧ leaves a = known ++ ls

namespace Yields

variable {known known' : List Token} {p : Reading α} {f : α → Reading β} {leaves : α → List Token}
  {result : β → List Token}

theorem pure {a : α} (h : leaves a = known) : Yields ts i known (pure a) leaves := by
  intro b j hb
  cases hb
  exact ⟨[], .nil _, by rw [h, append_nil]⟩

theorem of_eq (h : Yields ts i known p leaves) (he : known = known') : Yields ts i known' p leaves := he ▸ h

theorem bind (h : Yields ts i [] p leaves) (hf : ∀ a j, Yields ts j (known ++ leaves a) (f a) result) :
    Yields ts i known (p >>= f) result := by
  intro b k hb
  obtain ⟨a, j, ha, hb⟩ := bind_elim hb
  obtain ⟨ls, hls, hla⟩ := h a j ha
  obtain ⟨ls', hls', hlb⟩ := hf a j b k hb
  refine ⟨ls ++ ls', hls.trans hls', ?_⟩
  rw [hlb, hla, nil_append, append_assoc]

theorem after (h : Silent ts p) (hf : ∀ a j, p (.ofTokens ts) i = .ok a j → Yields ts j known (f a) result) :
    Yields ts i known (p >>= f) result := by
  intro b k hb
  obtain ⟨a, j, ha, hb⟩ := bind_elim hb
  obtain ⟨ls, hls, hlb⟩ := hf a j ha b k hb
  exact ⟨ls, (h i a j ha).trans hls, hlb⟩

section

variable {k : Kind} {s d : String}

theorem kind {f : Unit → Reading β} (hk : silentKind k = true) (hf : ∀ j, Yields ts j known (f ()) result) :
    Yields ts i known (expectKind k d >>= f) result :=
  after (.expectKind hk _) fun _ j _ => hf j

theorem word {f : Unit → Reading β} (hs : silentWord s = true) (hf : ∀ j, Yields ts j known (f ()) result) :
    Yields ts i known (expectWord s d >>= f) result :=
  after (.expectWord hs _) fun _ j _ => hf j

variable {f : Bool → Reading β}

theorem skip (hk : silentKind k = true) (ht : ∀ j, Yields ts j known (f true) result)
    (hf : ∀ j, Yields ts j known (f false) result) : Yields ts i known (skipKind k >>= f) result :=
  after (.skipKind hk) fun b j _ => b.rec (hf j) (ht j)

theorem skipWord (hs : silentWord s = true) (ht : ∀ j, Yields ts j known (f true) result)
    (hf : ∀ j, Yields ts j known (f false) result) : Yields ts i known (skipWord s >>= f) result :=
  after (.skipWord hs) fun b j _ => b.rec (hf j) (ht j)

end

theorem ite {c : Prop} {_ : Decidable c} {q : Reading α} (hp : c → Yields ts i known p leaves)
    (hq : ¬c → Yields ts i known q leaves) : Yields ts i known (if c then p else q) leaves := by
  split
  · next h => exact hp h
  · next h => exact hq h

theorem token {f : Token → Reading β} (h : Yields ts i known (f (tokenAt ts i)) result) :
    Yields ts i known (token >>= f) result := by
  intro b k hb
  rw [bind_ok (token_at (at_tokenAt ts i))] at hb
  exact h b k hb

theorem isWord {word : String} {f : Bool → Reading β}
    (h : Yields ts i known (f ((tokenAt ts i).isKeyword word)) result) :
    Yields ts i known (isWord word >>= f) result := by
  intro b k hb
  rw [bind_ok (isWord_at (at_tokenAt ts i) word)] at hb
  exact h b k hb

theorem start {f : Position → Reading β} (h : ∀ p, Yields ts i known (f p) result) :
    Yields ts i known (start >>= f) result := by
  intro b k hb
  rw [bind_ok (start_at (at_tokenAt ts i))] at hb
  exact h _ b k hb

theorem stop {f : Position → Reading β} (h : ∀ p, Yields ts i known (f p) result) :
    Yields ts i known (stop >>= f) result := by
  intro b k hb
  rw [bind_ok (stop_at (at_tokenAt ts i))] at hb
  exact h _ b k hb

theorem advance {f : Unit → Reading β} {ls : List Token} (h : Account ts i (i + 1) ls)
    (hf : Yields ts (i + 1) (known ++ ls) (f ()) result) : Yields ts i known (advance >>= f) result := by
  intro b k hb
  obtain ⟨ls', hls', hlb⟩ := hf b k hb
  exact ⟨ls ++ ls', h.trans hls', by rw [hlb, append_assoc]⟩

theorem refuse (details : String) : Yields ts i known (refuse details) leaves := by
  intro a j ha
  obtain ⟨d, hd⟩ := refuse_at (α := α) (at_tokenAt ts i) details
  rw [hd] at ha
  cases ha

theorem identifier (details : String) : Yields ts i [] (identifier details) leaf := by
  intro t j ht
  obtain ⟨rfl, ht, hk⟩ := identifier_elim ht
  cases ht.eq_tokenAt
  exact ⟨_, .of_leaf (isLeaf_of_kind hk), rfl⟩

theorem reword (h : Yields ts i known p leaves) (details : String) : Yields ts i known (p.reword details) leaves := by
  intro a j ha
  rw [reply_reword] at ha
  cases hp : p (.ofTokens ts) i with
  | ok b k =>
    rw [hp] at ha
    cases ha
    exact h _ _ hp
  | fail d k =>
    rw [hp] at ha
    dsimp only at ha
    split at ha
    · next hik =>
      subst hik
      exact refuse details a j ha
    · cases ha
  | fault | exhausted =>
    rw [hp] at ha
    cases ha

theorem attempt (h : Yields ts i [] p leaves) : Yields ts i [] p.attempt (·.toOption.toList.flatMap leaves) := by
  intro r j hr
  rw [reply_attempt] at hr
  cases hp : p (.ofTokens ts) i with
  | ok b k =>
    rw [hp] at hr
    cases hr
    obtain ⟨ls, hls, hlb⟩ := h _ _ hp
    exact ⟨ls, hls, by simpa [Except.toOption] using hlb⟩
  | fail d k =>
    rw [hp] at hr
    cases hr
    exact ⟨[], .nil _, rfl⟩
  | fault | exhausted =>
    rw [hp] at hr
    cases hr

theorem many {more : Reading Bool} (hm : Silent ts more) (h : ∀ i, Yields ts i [] p leaves) (i : Nat) :
    Yields ts i [] (more.many p) (·.flatMap leaves) := by
  have hafter (n k : Nat) : Yields ts k [] (manyAfter more p n) (·.flatMap leaves) := by
    induction n generalizing k with
    | zero => exact .pure rfl
    | succ n ih =>
      refine .after hm fun b j _ => .ite (fun _ => (h j).bind fun a l => (ih l).bind fun as m => .pure ?_)
        fun _ => .pure rfl
      rw [flatMap_cons, nil_append]
  exact .after .bound fun n k _ => hafter n k

theorem commaSeparated (h : ∀ i, Yields ts i [] p leaves) (i : Nat) :
    Yields ts i [] p.commaSeparated (·.flatMap leaves) := by
  refine (h i).bind fun a j => (many (.skipKind rfl) h j).bind fun as k => .pure ?_
  rw [flatMap_cons, nil_append]

section

variable (h : ∀ i, Yields ts i [] operand Node.leaves) (hop : ∀ t, isOperator t = true → t.isSilent = true)
include h hop

theorem operatorsAfter (n i : Nat) (left : Node) :
    Yields ts i left.leaves (operatorsAfter operand isOperator n left) Node.leaves := by
  induction n generalizing i left with
  | zero => exact .pure rfl
  | succ n ih =>
    refine .token (.ite (fun hc => .advance (account_of_silent (hop _ hc)) ((h _).bind fun right j => ?_))
      fun _ => .pure rfl)
    refine (ih j _).of_eq ?_
    rw [operation, leaves, leaf_of_isSilent (hop _ hc)]

theorem operators (i : Nat) : Yields ts i [] (operators operand isOperator) Node.leaves :=
  (h i).bind fun left _ => .after .bound fun n j _ => operatorsAfter h hop n j left

end

private theorem isSilent_of_isOneOf {kinds : List Kind} (h : kinds.all silentKind = true) (t : Token)
    (ht : isOneOf kinds t = true) : t.isSilent = true :=
  isSilent_of_kind (all_eq_true.1 h _ (contains_iff_mem.1 ht))

private theorem isSilent_of_connective (t : Token) (h : (t.isKeyword "and" || t.isKeyword "or") = true) :
    t.isSilent = true := by
  rcases Bool.or_eq_true .. ▸ h with h | h
  · exact isSilent_of_word h rfl
  · exact isSilent_of_word h rfl

/-! ### Rules -/

private theorem bringItem_yields (details : String) (i : Nat) : Yields ts i [] (bringItem details) itemLeaves :=
  (identifier _).bind fun _ _ => .skipWord rfl (fun _ => (identifier _).bind fun _ _ => .pure (by simp [itemLeaves]))
      fun _ => .pure (by simp [itemLeaves])

private theorem names_of_many {d : String} {n i j : Nat} {names : List Token} (hk : (tokenAt ts i).kind = .identifier)
    (h : manyAfter (skipKind .div) (Reading.identifier d) n (.ofTokens ts) (i + 1) = .ok names j) :
    Names ts i j (tokenAt ts i :: names) := by
  induction n generalizing i names with
  | zero =>
    cases h
    exact .last hk
  | succ n ih =>
    obtain ⟨b, k, hb, h⟩ := bind_elim h
    obtain ⟨t, ht, rfl, rfl⟩ := skipKind_elim hb
    cases ht.eq_tokenAt
    split at h
    · next hdiv =>
      obtain ⟨name, k, hname, h⟩ := bind_elim h
      obtain ⟨rfl, hat, hkind⟩ := identifier_elim hname
      cases hat.eq_tokenAt
      obtain ⟨more, k, hmore, h⟩ := bind_elim h
      cases h
      exact .more hk (eq_of_beq hdiv) (ih hkind hmore)
    · cases h
      exact .last hk

private theorem modulePath_names {path : Token} (h : modulePath (.ofTokens ts) i = .ok path j) :
    ∃ names, Names ts i j names ∧ path.value = .text ("/".intercalate (names.map text)) ∧ path.leaf = [path] := by
  obtain ⟨first, k, hfirst, h⟩ := bind_elim h
  obtain ⟨rfl, hat, hk⟩ := identifier_elim hfirst
  cases hat.eq_tokenAt
  obtain ⟨more, k, hmore, h⟩ := bind_elim h
  obtain ⟨m, l, hm, hmore⟩ := bind_elim hmore
  cases hm
  obtain ⟨stop, l, hstop, h⟩ := bind_elim h
  rw [start_at (at_tokenAt ts k)] at hstop
  cases hstop
  cases h
  exact ⟨_, names_of_many hk hmore, rfl, rfl⟩

private theorem bring_yields (hw : (tokenAt ts i).isKeyword "bring" = true) : Yields ts i [] bring Node.leaves := by
  intro r j hbring
  obtain ⟨u, k, hu, hr⟩ := bind_elim hbring
  cases hu
  obtain ⟨b, k, hb, hr⟩ := bind_elim hr
  have hbegin := (account_of_silent (isSilent_of_word hw rfl)).trans (Silent.skipWord rfl _ _ _ hb)
  split at hr
  · obtain ⟨path, k, hpath, hr⟩ := bind_elim hr
    cases hr
    obtain ⟨names, hnames, hvalue, hleaf⟩ := modulePath_names hpath
    refine ⟨_, hbegin.trans (.path hw hbring hnames hvalue (.nil _)), ?_⟩
    simp [Node.bringFrom, hleaf]
  · obtain ⟨first, k, hfirst, hr⟩ := bind_elim hr
    obtain ⟨more, k, hmore, hr⟩ := bind_elim hr
    obtain ⟨u, k, hfrom, hr⟩ := bind_elim hr
    obtain ⟨path, k, hpath, hr⟩ := bind_elim hr
    cases hr
    obtain ⟨names, hnames, hvalue, hleaf⟩ := modulePath_names hpath
    obtain ⟨ls, hls, hfirst⟩ := bringItem_yields _ _ _ _ hfirst
    obtain ⟨ls', hls', hmore⟩ := many (.skipKind rfl) (bringItem_yields _) _ _ _ hmore
    have hend := (Silent.expectWord rfl _ _ _ _ hfrom).trans (.path hw hbring hnames hvalue (.nil _))
    refine ⟨_, hbegin.trans (hls.trans (hls'.trans hend)), ?_⟩
    rw [nil_append] at hfirst hmore
    simp [Node.bringFrom, hleaf, ← hfirst, ← hmore]

private theorem share_yields (hw : (tokenAt ts i).isKeyword "share" = true) : Yields ts i [] share Node.leaves :=
  .start fun _ => .advance (account_of_silent (isSilent_of_word hw rfl))
    ((commaSeparated (fun _ => identifier _) _).bind fun _ _ => .start fun _ => .pure rfl)

private theorem parameters_yields (i : Nat) : Yields ts i [] parameters (·.flatMap leaf) :=
  .after (.isKind _) fun _ _ _ => .ite
    (fun _ => (commaSeparated (fun _ => identifier _) _).bind fun _ _ => .kind rfl fun _ =>
      .pure rfl)
    fun _ => .kind rfl fun _ => .pure rfl

private theorem handlerName_yields (i : Nat) : Yields ts i [] handlerName (·.toList.flatMap leaf) :=
  .skipWord rfl (fun _ => (identifier _).bind fun _ _ => .pure (by simp))
    fun _ => .pure rfl

section

variable {n : Nat} (h : ∀ part i, Yields ts i [] (read n part) Node.leaves)

include h

private theorem logic_yields (i : Nat) : Yields ts i [] (logic (read n)) Node.leaves := by
  refine .isWord (.ite (fun hc => ?_) fun _ => ?_)
  · have hsilent := isSilent_of_word hc rfl
    refine .token (.advance (account_of_silent hsilent) ((h _ _).bind fun e _ => .pure ?_))
    rw [Node.signed, Node.leaves, leaf_of_isSilent hsilent]
    rfl
  · have hkinds {kinds : List Kind} := @isSilent_of_isOneOf kinds
    exact (operators (operators (operators (operators (operators (h .factor) (hkinds rfl)) (hkinds rfl))
      (hkinds rfl)) (hkinds rfl)) isSilent_of_connective _).reword _

private theorem bracketed_yields (hk : silentKind closing = true) (details : String) (i : Nat) :
    Yields ts i [] (bracketed (read n) closing details) (·.flatMap Node.leaves) :=
  .after (.skipKind hk) fun _ _ _ => .ite (fun _ => .pure rfl) fun _ => (commaSeparated (h _) _).bind fun _ _ =>
    .after (.expectKind hk _) fun _ _ _ => .pure rfl

private theorem collection_yields {opening : Kind} (ho : silentKind opening = true)
    (hc : silentKind closing = true) {expected details : String} {make : Span → List Node → Node}
    (hmake : ∀ span es, (make span es).leaves = es.flatMap Node.leaves) (i : Nat) :
    Yields ts i [] (collection (read n) opening closing expected details make) Node.leaves :=
  .start fun _ => .after (.expectKind ho _) fun _ _ _ => (bracketed_yields h hc _ _).bind fun es _ =>
    .stop fun _ => .pure (hmake _ es)

section

variable (i : Nat)

private theorem clause_yields : Yields ts i [] (clause (read n)) clauseLeaves :=
  (identifier _).bind fun _ _ => .word rfl fun _ => (h _ _).bind fun _ _ =>
    (many (.skipWord rfl) (h _) _).bind fun _ _ => .pure (by simp [Node.clauseLeaves])

private theorem list_yields : Yields ts i [] (list (read n)) Node.leaves :=
  .start fun _ => .kind rfl fun _ => .skip rfl
    (fun _ => .stop fun _ => .pure rfl)
    fun _ => (h _ _).bind fun _ _ => .after (.isWord _) fun _ _ _ => .ite
      (fun _ => (many (.skipWord rfl) (clause_yields h) _).bind fun _ _ =>
        .kind rfl fun _ => .stop fun _ => .pure (by simp))
      fun _ => (many (.skipKind rfl) (h _) _).bind fun _ _ =>
        .kind rfl fun _ => .stop fun _ => .pure (by simp)

private theorem dict_yields : Yields ts i [] (dict (read n)) Node.leaves :=
  have pair (i : Nat) : Yields ts i [] (pair (read n)) Node.pairLeaves :=
    (h _ _).bind fun _ _ => .kind rfl fun _ => (h _ _).bind fun _ _ =>
      .pure (by simp [Node.pairLeaves])
  .start fun _ => .kind rfl fun _ => .skip rfl
    (fun _ => .stop fun _ => .pure rfl)
    fun _ => (commaSeparated pair _).bind fun _ _ => .kind rfl fun _ =>
      .stop fun _ => .pure (by simp)

private theorem parenthesised_yields : Yields ts i [] (parenthesised (read n)) Node.leaves :=
  .kind rfl fun _ => (h _ _).bind fun _ _ => .kind rfl fun _ =>
    .pure rfl

private theorem lambda_yields : Yields ts i [] (lambda (read n)) Node.leaves :=
  have rest (first : Position) (params : List Token) (i : Nat) :
      Yields ts i (params.flatMap leaf) (do
        Reading.expectKind .arrow "Expected '=>'"
        let body ← read n .logic
        return .lambda ⟨first, ← Reading.stop⟩ params body) Node.leaves :=
    .kind rfl fun _ => (h _ _).bind fun _ _ => .stop fun _ => .pure (by simp)
  .start fun _ => .word rfl fun _ => .after (.isKind _) fun _ _ _ => .ite
    (fun _ => (commaSeparated (fun _ => identifier _) _).bind fun _ _ => rest _ _ _) fun _ => rest _ [] _

theorem body_yields : Yields ts i [] (body (read n)) Node.leaves :=
  .skip rfl
    (fun _ => (h _ _).bind fun _ _ => .word rfl fun _ => .pure rfl) fun _ => h _ _

private theorem counting_yields : Yields ts i [] (counting (read n)) Node.leaves :=
  have rest (name : Token) (first last : Node) (step : Option Node) (i : Nat) :
      Yields ts i (name.leaf ++ first.leaves ++ last.leaves ++ step.toList.flatMap Node.leaves)
        (do colon; return .countTo name first last step (← body (read n))) Node.leaves :=
    .kind rfl fun _ => (body_yields h _).bind fun _ _ => .pure (by simp [Node.countTo])
  (identifier _).bind fun _ _ => .word rfl fun _ => (h _ _).bind fun _ _ =>
    .word rfl fun _ => (h _ _).bind fun _ _ => .skipWord rfl
      (fun _ => (h _ _).bind fun step _ => (rest _ _ _ (some step) _).of_eq (by simp))
      fun _ => (rest _ _ _ none _).of_eq (by simp)

private theorem whileLoop_yields : Yields ts i [] (whileLoop (read n)) Node.leaves :=
  .word rfl fun _ => (h _ _).bind fun _ _ => .kind rfl fun _ =>
    (body_yields h _).bind fun _ _ => .pure (by simp [Node.loopWhile])

private theorem repeatLoop_yields : Yields ts i [] (repeatLoop (read n)) Node.leaves :=
  .word rfl fun _ => (h _ _).bind fun _ _ => .kind rfl fun _ =>
    (body_yields h _).bind fun _ _ => .pure (by simp [Node.repeatWhile])

private theorem functionDefinition_yields : Yields ts i [] (functionDefinition (read n)) Node.leaves :=
  have rest (name : Option Token) (i : Nat) : Yields ts i (name.toList.flatMap leaf) (do
        expectKind .lparen "Expected '('"
        let params ← parameters
        colon
        return .define name params (← body (read n))) Node.leaves :=
    .kind rfl fun _ => (parameters_yields _).bind fun _ _ =>
      .kind rfl fun _ => (body_yields h _).bind fun _ _ => .pure (by simp [Node.define])
  .word rfl fun _ => .after (.isKind _) fun _ _ _ => .ite
    (fun _ => (identifier _).bind fun name _ => (rest (some name) _).of_eq (by simp)) fun _ => rest none _

private theorem attemptHandle_yields : Yields ts i [] (attemptHandle (read n)) Node.leaves :=
  .word rfl fun _ => .kind rfl fun _ =>
    .skip rfl
      (fun _ => (h _ _).bind fun _ _ => .word rfl fun _ => .after .newlines fun _ _ _ =>
        .word rfl fun _ => (handlerName_yields _).bind fun _ _ =>
          .kind rfl fun _ => (body_yields h _).bind fun _ _ =>
            .pure (by simp [Node.attemptOr]))
      fun _ => (h _ _).bind fun _ _ => .word rfl fun _ => (handlerName_yields _).bind fun _ _ =>
        .kind rfl fun _ => (h _ _).bind fun _ _ => .pure (by simp [Node.attemptOr])

private theorem caseBody_yields : Yields ts i [] (caseBody (read n)) (·.1.leaves) :=
  .skip rfl (fun _ => (h _ _).bind fun _ _ => .pure rfl)
    fun _ => (h _ _).bind fun _ _ => .after (.skipKind rfl) fun _ _ _ => .pure rfl

private theorem caseClause_yields : Yields ts i [] (caseClause (read n)) caseLeaves :=
  (h _ _).bind fun _ _ => .kind rfl fun _ => (caseBody_yields h _).bind fun _ _ =>
    .after .newlines fun _ _ _ => .pure (by simp [Node.caseLeaves])

private theorem switch_yields : Yields ts i [] (switch (read n)) Node.leaves :=
  have rest (subject : Node) (cases : List Case) (default : Option (Node × Bool)) (i : Nat) :
      Yields ts i (subject.leaves ++ cases.flatMap Node.caseLeaves ++ default.toList.flatMap (·.1.leaves)) (do
        let _ ← newlines
        expectWord "end" "Expected 'whether', 'default', or 'end'"
        return .select subject cases default) Node.leaves :=
    .after .newlines fun _ _ _ => .word rfl fun _ => .pure (by simp [Node.select])
  .word rfl fun _ => (h _ _).bind fun _ _ => .kind rfl fun _ =>
    .kind rfl fun _ => .after .newlines fun _ _ _ =>
      (many (.skipWord rfl) (caseClause_yields h) _).bind fun _ _ => .skipWord rfl
        (fun _ => .kind rfl fun _ => (caseBody_yields h _).bind fun body _ =>
          (rest _ _ (some body) _).of_eq (by simp))
        fun _ => (rest _ _ none _).of_eq (by simp)

end

/-- The leaves of what can follow the first block of a conditional. -/
def alternativeLeaves (r : List Case × Option (Node × Bool)) : List Token :=
  r.1.flatMap caseLeaves ++ r.2.toList.flatMap (·.1.leaves)

private theorem alternatives_yields (m i : Nat) : Yields ts i [] (alternatives (read n) m) alternativeLeaves := by
  induction m generalizing i with
  | zero => exact .pure rfl
  | succ m ih =>
    refine .after (.skipWord rfl) fun b j hb => .ite (fun ho => .after (.skipWord rfl) fun b' k hb' =>
      .ite (fun hw => ?_) fun _ => ?_) fun _ => .pure rfl
    · subst ho hw
      obtain ⟨t, ht, hother, rfl⟩ := skipWord_elim hb
      obtain ⟨t', ht', hwhen, rfl⟩ := skipWord_elim hb'
      cases ht.eq_tokenAt
      cases ht'.eq_tokenAt
      intro r l hr
      obtain ⟨condition, k, hcondition, hr⟩ := bind_elim hr
      obtain ⟨u, k', hcolon, hr⟩ := bind_elim hr
      obtain ⟨b, k'', hb, hr⟩ := bind_elim hr
      have hrest := (Silent.expectKind rfl _ _ _ _ hcolon).trans (Silent.skipKind rfl _ _ _ hb)
      split at hr
      · obtain ⟨ls, hls, hleaves⟩ := h _ _ _ _ hcondition
        obtain ⟨block, k, hblock, hr⟩ := bind_elim hr
        obtain ⟨ls', hls', hleaves'⟩ := h _ _ _ _ hblock
        obtain ⟨more, k, hmore, hr⟩ := bind_elim hr
        obtain ⟨ls'', hls'', hleaves''⟩ := ih _ _ _ hmore
        cases hr
        refine ⟨_, hls.trans (hrest.trans (hls'.trans hls'')), ?_⟩
        rw [nil_append] at hleaves hleaves' hleaves''
        simp [alternativeLeaves, Node.caseLeaves, ← hleaves, ← hleaves', ← hleaves'']
      · obtain ⟨ls, hls, hleaves⟩ := ih _ _ _ hr
        obtain ⟨rfl, t, ht, hkind⟩ := expectKind_elim hcolon
        obtain ⟨t', ht', rfl, rfl⟩ := skipKind_elim hb
        cases ht.eq_tokenAt
        cases ht'.eq_tokenAt
        next hline =>
        exact ⟨ls, .dropped (.condition hother.symm hwhen.symm ⟨n, _, hcondition⟩ hkind fun hk => hline (by simp [hk]))
          (hrest.trans hls), hleaves⟩
    · exact .kind rfl fun _ => .skip rfl (fun _ => (h _ _).bind fun _ _ => .pure (by simp [alternativeLeaves]))
        fun _ => .pure rfl

private theorem conditional_yields (i : Nat) : Yields ts i [] (conditional (read n)) Node.leaves :=
  .word rfl fun _ => (h _ _).bind fun _ _ => .kind rfl fun _ =>
    .skip rfl
      (fun _ => (h _ _).bind fun _ _ => .after .bound fun m _ _ => (alternatives_yields h m _).bind fun _ _ =>
        .word rfl fun _ => .pure (by simp [Node.choose, alternativeLeaves, Node.caseLeaves]))
      fun _ => (h _ _).bind fun _ _ => .pure (by simp [Node.choose, Node.caseLeaves])

private theorem cycle_yields (i : Nat) : Yields ts i [] (cycle (read n)) Node.leaves := by
  refine .after (.expectWord rfl _) fun _ j _ => .after (.skipWord rfl) fun b k hb =>
    .ite (fun hc => ?_) fun _ => counting_yields h _
  subst hc
  obtain ⟨t, ht, heach, rfl⟩ := skipWord_elim hb
  cases ht.eq_tokenAt
  intro r l hr
  obtain ⟨name, k, hname, hr⟩ := bind_elim hr
  obtain ⟨u, k', hthrough, hr⟩ := bind_elim hr
  obtain ⟨items, m, hitems, hr⟩ := bind_elim hr
  obtain ⟨u', m', hcolon, hr⟩ := bind_elim hr
  obtain ⟨b, m'', hb, hr⟩ := bind_elim hr
  obtain ⟨rfl, t, ht, rfl⟩ := isKind_elim hb
  cases ht.eq_tokenAt
  have hend := Silent.expectKind rfl _ _ _ _ hcolon
  split at hr
  · obtain ⟨ls, hls, hleaves⟩ := identifier _ _ _ hname
    obtain ⟨ls', hls', hleaves'⟩ := h _ _ _ _ hitems
    obtain ⟨body, k, hbody, hr⟩ := bind_elim hr
    obtain ⟨ls'', hls'', hleaves''⟩ := body_yields h _ _ _ hbody
    cases hr
    have hmid := Silent.expectWord rfl _ _ _ _ hthrough
    refine ⟨_, hls.trans (hmid.trans (hls'.trans (hend.trans hls''))), ?_⟩
    rw [nil_append] at hleaves hleaves' hleaves''
    simp [Node.eachOf, ← hleaves, ← hleaves', ← hleaves'']
  · next hline =>
    obtain ⟨ls, hls, hleaves⟩ := counting_yields h _ _ _ hr
    obtain ⟨rfl, hat, hname⟩ := identifier_elim hname
    cases hat.eq_tokenAt
    obtain ⟨rfl, t, ht, hthrough⟩ := expectWord_elim hthrough
    cases ht.eq_tokenAt
    obtain ⟨rfl, t, ht, hkind⟩ := expectKind_elim hcolon
    cases ht.eq_tokenAt
    have hhead := Dropped.head heach.symm hname hthrough ⟨n, _, hitems⟩ hkind fun hk => hline (by simp [hk])
    exact ⟨ls, .dropped hhead (hend.trans hls), hleaves⟩

private theorem atom_yields (i : Nat) : Yields ts i [] (atom (read n)) Node.leaves := by
  refine .token ?_
  have literal {f : Node} (hf : f.leaves = (tokenAt ts i).leaf) (hleaf : (tokenAt ts i).isLeaf = true) :
      Yields ts i [] (do Reading.advance; return f) Node.leaves :=
    .advance (.of_leaf hleaf) (.pure hf)
  have truth (b : Bool) (hw : (tokenAt ts i).isKeyword (if b then "true" else "false") = true) :
      Yields ts i [] (do
        Reading.advance
        return .ofNumber ⟨.int, .int (if b then 1 else 0), (tokenAt ts i).start, (tokenAt ts i).stop⟩) Node.leaves :=
    .advance (.truth b hw (.nil _)) (.pure rfl)
  split
  case h_6 => exact parenthesised_yields h _
  case h_7 => exact list_yields h _
  case h_8 => exact collection_yields h rfl rfl (by simp) _
  case h_9 => exact dict_yields h _
  case h_10 => exact collection_yields h rfl rfl (by simp) _
  case h_11 =>
    exact .ite (truth true) fun _ => .ite (truth false) fun _ => .ite (fun _ => conditional_yields h _) fun _ =>
      .ite (fun _ => cycle_yields h _) fun _ => .ite (fun _ => whileLoop_yields h _) fun _ =>
      .ite (fun _ => repeatLoop_yields h _) fun _ => .ite (fun _ => functionDefinition_yields h _) fun _ =>
      .ite (fun _ => lambda_yields h _) fun _ => .ite (fun _ => attemptHandle_yields h _) fun _ =>
      .ite (fun _ => switch_yields h _) fun _ => refuse _
  all_goals
    next hk => exact literal rfl (by rw [isLeaf, hk]; rfl)

private theorem elementsAfter_yields (m i : Nat) (collection : Node) :
    Yields ts i collection.leaves (elementsAfter (read n) m collection) Node.leaves := by
  induction m generalizing i collection with
  | zero => exact .pure rfl
  | succ m ih =>
    exact .skip rfl
      (fun _ => (atom_yields h _).bind fun _ _ => (ih _ _).of_eq (by simp [Node.element])) fun _ => .pure rfl

private theorem call_yields (i : Nat) : Yields ts i [] (call (read n)) Node.leaves :=
  (atom_yields h _).bind fun _ _ => .skip rfl
    (fun _ => (bracketed_yields h rfl _ _).bind fun _ _ => .pure (by simp [Node.call]))
    fun _ => .after .bound fun m _ _ => elementsAfter_yields h m _ _

private theorem factor_yields (i : Nat) : Yields ts i [] (factor (read n)) Node.leaves := by
  refine .token (.ite (fun hsign => ?_) fun _ => call_yields h _)
  have hsilent : (tokenAt ts i).isSilent = true := by
    rcases Bool.or_eq_true .. ▸ hsign with hk | hk
    · exact isSilent_of_kind (by rw [eq_of_beq hk]; rfl)
    · exact isSilent_of_kind (by rw [eq_of_beq hk]; rfl)
  refine .advance (account_of_silent hsilent) ((h _ _).bind fun _ _ => .pure ?_)
  rw [Node.signed, Node.leaves, leaf_of_isSilent hsilent]
  rfl

private theorem putIn_yields (hput : (tokenAt ts i).isKeyword "put" = true) :
    Yields ts (i + 1) [] (putIn (read n)) Node.leaves := by
  intro r l hr
  obtain ⟨value, k, hvalue, hr⟩ := bind_elim hr
  obtain ⟨u, k', hin, hr⟩ := bind_elim hr
  obtain ⟨name, k'', hname, hr⟩ := bind_elim hr
  obtain ⟨b, m, hb, hr⟩ := bind_elim hr
  obtain ⟨ls, hls, hleaves⟩ := h _ _ _ _ hvalue
  obtain ⟨ls', hls', hleaves'⟩ := identifier _ _ _ hname
  have hassign := hls.trans ((Silent.expectWord rfl _ _ _ _ hin).trans
    (hls'.trans (Silent.skipKind rfl _ _ _ hb)))
  have hall : (Node.assignTo name value).leaves = [] ++ (ls ++ ([] ++ (ls' ++ []))) := by
    simp [Node.assignTo, hleaves, hleaves']
  split at hr
  · next hsign =>
    subst hsign
    obtain ⟨place, k, hplace, hr⟩ := bind_elim hr
    cases hr
    obtain ⟨rfl, t, ht, hin⟩ := expectWord_elim hin
    cases ht.eq_tokenAt
    obtain ⟨rfl, hat, hname⟩ := identifier_elim hname
    cases hat.eq_tokenAt
    obtain ⟨t, ht, hsign, rfl⟩ := skipKind_elim hb
    cases ht.eq_tokenAt
    have hdropped := Dropped.place hput ⟨n, _, hvalue⟩ hin hname (eq_of_beq hsign.symm) ⟨n, _, hplace⟩
    exact ⟨_, hassign.trans (.dropped hdropped (.nil _)), by simp [hall]⟩
  · cases hr
    exact ⟨_, hassign, hall⟩

private theorem expression_yields (i : Nat) : Yields ts i [] (expression (read n)) Node.leaves := by
  refine .after (.skipWord rfl) fun b j hb => .ite (fun hc => ?put) fun _ => .after (.skipWord rfl) fun _ k _ =>
    .ite (fun _ => ?keep) fun _ => ?other
  case put =>
    subst hc
    obtain ⟨t, ht, hput, rfl⟩ := skipWord_elim hb
    cases ht.eq_tokenAt
    exact putIn_yields h hput.symm
  case keep =>
    exact (h _ _).bind fun _ _ => .word rfl fun _ => (identifier _).bind fun _ _ =>
      .pure (by simp [Node.keepAs])
  case other =>
    intro r l hr
    obtain ⟨b, m, hb, hr⟩ := bind_elim hr
    obtain ⟨t, ht, hshow, rfl⟩ := skipWord_elim hb
    cases ht.eq_tokenAt
    split at hr
    · next hb =>
      subst hb
      obtain ⟨value, m, hvalue, hr⟩ := bind_elim hr
      obtain ⟨ls, hls, hleaves⟩ := h _ _ _ _ hvalue
      rw [bind_ok (start_at (at_tokenAt ts m)), bind_ok (stop_at (at_tokenAt ts m))] at hr
      cases hr
      exact ⟨_, .output (k := l) hshow.symm hls, by simp [Node.call, Node.ofName, hleaves, leaf_eq, isLeaf]⟩
    · exact h _ _ _ _ hr

private theorem statement_yields (i : Nat) : Yields ts i [] (statement (read n)) (·.1.leaves) := by
  refine .start fun from_ => .isWord (.ite (fun hw => (bring_yields hw).bind fun _ _ => .pure rfl)
    fun _ => .isWord (.ite
    (fun hw => (share_yields hw).bind fun _ _ => .pure rfl) fun _ => .skipWord rfl
    (fun _ => ?_) fun _ => .skipWord rfl (fun _ => .start fun _ => .pure rfl) fun _ =>
    .skipWord rfl (fun _ => .start fun _ => .pure rfl) fun _ =>
    ((expression_yields h _).reword _).bind fun _ _ => .pure rfl))
  refine (expression_yields h _).attempt.bind fun result _ => ?_
  cases result with
  | ok value => exact .start fun _ => .pure (by simp [Except.toOption])
  | error reversed => exact .start fun _ => .pure rfl

private theorem statementsAfter_yields (m i : Nat) :
    Yields ts i [] (statementsAfter (read n) m) (·.1.flatMap Node.leaves) := by
  induction m generalizing i with
  | zero => exact .pure rfl
  | succ m ih =>
    refine .after .newlines fun _ _ _ => .ite (fun _ => .pure rfl) fun _ => (h _ _).attempt.bind fun result _ => ?_
    cases result with
    | ok s => exact (ih _).bind fun _ _ => .pure (by simp [Except.toOption])
    | error reversed => exact .pure rfl

private theorem statements_yields (i : Nat) : Yields ts i [] (statements (read n)) (·.1.leaves) :=
  .start fun _ => .after .newlines fun _ _ _ => .after (.isKind _) fun _ _ _ => .ite
    (fun _ => .stop fun _ => .pure rfl)
    fun _ => (h _ _).bind fun _ _ => .after .bound fun m _ _ => (statementsAfter_yields h m _).bind fun _ _ =>
      .stop fun _ => .pure (by simp)

end

private theorem read_yields (n : Nat) (part : Part) (i : Nat) : Yields ts i [] (read n part) Node.leaves := by
  induction n generalizing part i with
  | zero =>
    intro a j h
    cases h
  | succ n ih =>
    cases part with
    | statements => exact (statements_yields ih i).bind fun _ _ => .pure rfl
    | statement => exact (statement_yields ih i).bind fun _ _ => .pure rfl
    | logic => exact logic_yields ih i
    | factor => exact factor_yields ih i

end Yields

private theorem exists_eof (h : (tokenAt ts i).kind = .eof) : ∃ t ∈ ts, t.kind = .eof := by
  unfold tokenAt at h
  cases hi : ts[i]? with
  | some t =>
    rw [hi] at h
    exact ⟨t, mem_of_getElem? hi, h⟩
  | none =>
    rw [hi] at h
    cases hl : ts.getLast? with
    | some t =>
      rw [hl] at h
      exact ⟨t, mem_of_getLast? hl, h⟩
    | none =>
      rw [hl] at h
      cases h

/-- The statements of an accepted text end where the text does. -/
theorem statements_of_parse {tree : Node} (h : parse (ts.map .token) = .ok tree) :
    ∃ n reversed, statements (read n) (.ofTokens ts) 0 = .ok (tree, reversed) (ts.findIdx (·.kind == .eof)) := by
  unfold parse at h
  split at h
  · next tree' reversed e hp =>
    obtain rfl := Except.ok.inj h
    obtain ⟨r, j, hstatements, hp⟩ := bind_elim hp
    obtain ⟨b, k, hb, hp⟩ := bind_elim hp
    obtain ⟨rfl, t, ht, rfl⟩ := isKind_elim hb
    cases ht.eq_tokenAt
    split at hp
    · next hk =>
      cases hp
      let T := Tape.untilEnd ts (exists_eof (eq_of_beq hk))
      have hlast : T.last ≤ ts.length := findIdx_le_length
      have hkeeps : T.Keeps (statements (read (depthFor (ts.map Lexeme.token).length))) 0 :=
        Tape.keeps_all (composed_statements trivial) (Nat.zero_le _) (Tape.keepsFrom_read
          (.inl (by simp only [depthFor, length_map]; omega)))
      have hle : e ≤ T.last := by
        unfold Tape.Keeps Tape.Meets at hkeeps
        rw [show T.input = .ofTokens ts from rfl, hstatements] at hkeeps
        exact hkeeps.1
      obtain ⟨t, hat, heof⟩ := T.ends e hle
      cases hat.eq_tokenAt
      exact ⟨_, _, heof.1 (eq_of_beq hk) ▸ hstatements⟩
    · rw [bind_ok (start_at (at_tokenAt ts k)), bind_ok (stop_at (at_tokenAt ts k))] at hp
      cases hp
  all_goals cases h

/-! ### Programs -/

/-- The literals and names up to the end of an accepted text are in its tree, in the order in which they are written
and each once: those in the path of a module as one, and only those in a dropped stretch of the text not at all. -/
theorem parse_accounts {tree : Node} (h : parse (ts.map .token) = .ok tree) :
    Account ts 0 (ts.findIdx (·.kind == .eof)) tree.leaves := by
  obtain ⟨n, reversed, hstatements⟩ := statements_of_parse h
  obtain ⟨ls, hls, hleaves⟩ := Yields.statements_yields (Yields.read_yields n) _ _ _ hstatements
  cases hleaves
  exact hls

namespace Sample

def tagged (kind : Kind) (value : Scalar) : Token := ⟨kind, value, .start ⟨"w", ""⟩, .start ⟨"w", ""⟩⟩

def wordOf (w : String) : Token := tagged .keyword (.text w)

def nameOf (s : String) : Token := tagged .identifier (.text s)

def signOf (kind : Kind) : Token := tagged kind .absent

/-- A name from a module at a path, and the output of a truth value. -/
def bringAndShow : List Token :=
  [wordOf "bring", nameOf "f", wordOf "from", nameOf "a", signOf .div, nameOf "b", signOf .newline, wordOf "show",
    wordOf "true", signOf .eof]

/-- The path is one token in the tree, and the output and the truth value are one token each. -/
theorem parse_accounts_bring :
    ∃ tree, parse (bringAndShow.map .token) = .ok tree ∧ Account bringAndShow 0 9 tree.leaves ∧
      tree.leaves.map value = [.text "f", .text "a/b", .text "show", .int 1] :=
  ⟨_, rfl, parse_accounts rfl, rfl⟩

/-- An assignment to a place in a list: `put 5 in xs @ 0`. -/
def putPlace : List Token :=
  [wordOf "put", tagged .int (.int 5), wordOf "in", nameOf "xs", signOf .atSign, tagged .int (.int 0), signOf .eof]

/-- Another case without a body: `when a:`, then `b` on a line, then `otherwise when c: end`. -/
def openCase : List Token :=
  [wordOf "when", nameOf "a", signOf .colon, signOf .newline, nameOf "b", signOf .newline, wordOf "otherwise",
    wordOf "when", nameOf "c", signOf .colon, wordOf "end", signOf .eof]

/-- The head of a loop through a list, then a counting loop: `cycle each x through xs: i from 1 to 2: i`. -/
def openLoop : List Token :=
  [wordOf "cycle", wordOf "each", nameOf "x", wordOf "through", nameOf "xs", signOf .colon, nameOf "i", wordOf "from",
    tagged .int (.int 1), wordOf "to", tagged .int (.int 2), signOf .colon, nameOf "i", signOf .eof]

/-- A place, a condition and the head of a loop that are read and are not in the tree. -/
theorem leaves_dropped :
    (∃ tree, parse (putPlace.map .token) = .ok tree ∧ tree.leaves.map value = [.int 5, .text "xs"]) ∧
    (∃ tree, parse (openCase.map .token) = .ok tree ∧ tree.leaves.map value = [.text "a", .text "b"]) ∧
    ∃ tree, parse (openLoop.map .token) = .ok tree ∧
      tree.leaves.map value = [.text "i", .int 1, .int 2, .text "i"] :=
  ⟨⟨_, rfl, rfl⟩, ⟨_, rfl, rfl⟩, _, rfl, rfl⟩

end Sample

end Utterance.Grammar

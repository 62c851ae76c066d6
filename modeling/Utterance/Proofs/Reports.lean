import Utterance.Proofs.KeepingEvaluate
import Utterance.Proofs.Readings
import Utterance.Proofs.Scanning

/-!
# Which errors can be shown

The report of an error needs the two ends of its place, and the places from which the calls around it were entered.
The latter are always there, as a call is entered with a value that was just seen at the call. The former may be
missing: an operator reports where its operands were last seen, and a value that was made on the way was not seen
anywhere. These are the only errors of a program that cannot be shown (`Session.report_shown_iff`).
-/

namespace Utterance

open Eval

variable {d : Diagnostic} {lexemes : List Lexeme} {text : String}

namespace Diagnostic

/-- Every call says from where it was entered; the outermost level is the program, which was not called. -/
def Traced (levels : List Level) : Prop := ∀ level ∈ levels.dropLast, level.entry.isSome = true

theorem traced_call {start stop : Option Position} {outer : List Level} (name : String)
    (h : start.isSome = true ∧ stop.isSome = true) (ho : Traced outer) : Traced (⟨name, start⟩ :: outer) := by
  cases outer with
  | nil => exact fun level hl => nomatch hl
  | cons level outer => exact List.forall_mem_cons.2 ⟨h.1, ho⟩

theorem Traced.traceback_ok {levels : List Level} (h : Traced levels) (place : Position) :
    ∃ lines, traceback levels (some place) = .ok lines := by
  induction levels generalizing place with
  | nil => exact ⟨_, rfl⟩
  | cons level outer ih =>
    cases outer with
    | nil => exact ⟨_, rfl⟩
    | cons level' outer =>
      obtain ⟨hentry, houter⟩ := List.forall_mem_cons.1 h
      obtain ⟨entry, hentry⟩ := Option.isSome_iff_exists.1 hentry
      obtain ⟨lines, hlines⟩ := ih houter entry
      rw [traceback, hentry, hlines]
      exact ⟨_, rfl⟩

def Placed (d : Diagnostic) : Prop := d.start.isSome = true ∧ d.stop.isSome = true

/-- An error whose calls can be listed is shown exactly if its place is known. -/
theorem render_ok_iff (h : ∀ levels, d.kind = .runtime levels → Traced levels) : (∃ report, d.render = .ok report)
    ↔ d.Placed := by
  obtain ⟨kind, start, stop, details⟩ := d
  cases start with
  | none =>
    refine iff_of_false (fun ⟨report, hr⟩ => ?_) fun hp => nomatch hp.1
    cases kind with
    | runtime levels => cases levels <;> cases hr
    | _ => cases hr
  | some p =>
    have htrace {levels : List Level} (hk : kind = .runtime levels) := (h levels hk).traceback_ok p
    cases stop with
    | none =>
      refine iff_of_false (fun ⟨report, hr⟩ => ?_) fun hp => nomatch hp.2
      cases kind with
      | runtime levels =>
        obtain ⟨lines, hlines⟩ := htrace rfl
        unfold render at hr
        dsimp only at hr
        rw [hlines] at hr
        cases hr
      | _ => cases hr
    | some q =>
      refine iff_of_true ?_ ⟨rfl, rfl⟩
      cases kind with
      | runtime levels =>
        obtain ⟨lines, hlines⟩ := htrace rfl
        unfold render
        dsimp only
        rw [hlines]
        exact ⟨_, rfl⟩
      | _ => exact ⟨_, rfl⟩

/-- The calls around an error are known, and so is its place, unless it is the report of an operator. -/
structure Accounted (d : Diagnostic) : Prop where
  traced : ∀ levels, d.kind = .runtime levels → Traced levels
  operand : ¬ d.Placed → OperandReport d.details ∧ ∃ levels, d.kind = .runtime levels

theorem Accounted.of_placed (h : ∀ levels, d.kind = .runtime levels → Traced levels) (hp : d.Placed) : d.Accounted :=
  ⟨h, fun hn => absurd hp hn⟩

theorem Accounted.of_kind (h : ∀ levels, d.kind ≠ .runtime levels) (hp : d.Placed) : d.Accounted :=
  .of_placed (fun levels hk => absurd hk (h levels)) hp

end Diagnostic

open Diagnostic

namespace Token

def Step.Characters : Step → Prop
  | .refuse (.diagnostic d) => ∃ start stop details, d = .illegalCharacter start stop details
  | _ => True

theorem step_characters (last : Option Token) (cur : Cursor) (c : Char) : (step last cur c).Characters := by
  have ofScanned (x : Scanned Token) : (Step.ofScanned x).Characters := by cases x <;> trivial
  -- left are words, an exclamation mark and single marks; the last two can be refused
  refine @step_elim (fun s _ => s.Characters) last last cur cur c (fun _ => trivial) (fun _ => trivial)
    (fun _ => ofScanned _) (fun _ => ?_) (fun _ => trivial) (fun _ _ _ _ => trivial) (fun _ => ?_) (fun _ => trivial)
    (fun _ => ofScanned _) (fun _ => ofScanned _) ?_
  · generalize scanWord cur = x
    cases x <;> trivial
  · unfold scanNotEquals
    dsimp only
    split
    · trivial
    · exact ⟨_, _, _, rfl⟩
  · unfold Step.ofMark
    split
    · trivial
    · exact ⟨_, _, _, rfl⟩

theorem scanFrom_refused {fuel : Nat} {last : Option Token} {cur : Cursor}
    (h : scanFrom fuel last cur = .error (.diagnostic d)) :
    ∃ start stop details, d = .illegalCharacter start stop details := by
  induction fuel generalizing last cur with
  | zero =>
    unfold scanFrom at h
    split at h <;> cases h
  | succ fuel ih =>
    unfold scanFrom at h
    split at h
    · cases h
    · next c _ _ =>
      -- the step refuses, or a later one does
      have hc := step_characters last cur c
      cases hs : step last cur c with
      | trivia after =>
        rw [hs] at h
        exact ih h
      | lexeme x after =>
        rw [hs] at h
        unfold Step.followedBy at h
        dsimp only at h
        cases hr : scanFrom fuel (ofLexeme? x) after with
        | ok rest =>
          rw [hr] at h
          cases h
        | error r =>
          rw [hr] at h
          obtain rfl : r = .diagnostic d := by injection h
          exact ih hr
      | refuse r =>
        rw [hs] at h hc
        obtain rfl : r = .diagnostic d := by injection h
        exact hc

theorem scan_refused {source : Source} (h : scan source = .error (.diagnostic d)) : d.Accounted := by
  obtain ⟨start, stop, details, rfl⟩ := scanFrom_refused h
  exact .of_kind nofun ⟨rfl, rfl⟩

end Token

namespace Grammar

open Reading

theorem program_refused {rec : Recursion} {input : Input} {i j n : Nat}
    (h : program rec input i = .ok (.error d, n) j) : ∃ start stop details, d = .invalidSyntax start stop details := by
  obtain ⟨⟨tree, reversed⟩, k, -, h⟩ := bind_elim h
  obtain ⟨atEnd, k, -, h⟩ := bind_elim h
  cases atEnd with
  | true => cases h
  | false =>
    obtain ⟨start, k, -, h⟩ := bind_elim h
    obtain ⟨stop, k, -, h⟩ := bind_elim h
    cases h
    exact ⟨start, stop, _, rfl⟩

theorem parse_syntactic (h : parse lexemes = .error (.diagnostic d)) :
    ∃ start stop details, d = .invalidSyntax start stop details := by
  have hs := (program (read (depthFor lexemes.length))).syntactic (.ofList lexemes) 0
  unfold parse at h
  split at h
  · cases h
  · next hr =>
    cases h
    exact program_refused hr
  · next hr =>
    cases h
    rw [show (Reading.run _ _ _).1 = _ from hr] at hs
    exact hs
  · cases h
  · cases h

theorem parse_refused (h : parse lexemes = .error (.diagnostic d)) : d.Accounted := by
  obtain ⟨start, stop, details, rfl⟩ := parse_syntactic h
  exact .of_kind nofun ⟨rfl, rfl⟩

end Grammar

def Contract.reports : Contract :=
  { Contract.loose with
    placed := fun start stop => start.isSome = true ∧ stop.isSome = true
    levels := Traced
    report := Accounted
    placed_some := fun _ _ => ⟨rfl, rfl⟩
    levels_nil := fun _ hl => nomatch hl
    levels_top := fun _ _ hl => nomatch hl
    levels_call := fun name _ hp hl => traced_call name hp hl
    report_placed := fun details hp hl => .of_placed (fun _ hk => by cases hk; exact hl) hp
    report_operand := fun start stop hd hl =>
      ⟨fun _ hk => by cases hk; exact hl, fun _ => ⟨hd, _, rfl⟩⟩
    report_missing := fun _ _ _ _ => .of_kind (fun _ => nofun) ⟨rfl, rfl⟩
    report_circular := fun _ _ _ _ => .of_kind (fun _ => nofun) ⟨rfl, rfl⟩ }

namespace Session

theorem error_of_runTree {ev : Evaluator} {tree : Node} {frame : Frame} {w v : World}
    (h : runTree ev tree frame w = .ok (.error d) v) : ev tree frame w = .error (.error d) v := by
  cases hr : ev tree frame w with
  | ok r u =>
    rw [runTree_ok hr] at h
    cases h
  | error s u =>
    unfold runTree at h
    rw [tryCatch_error (bind_error hr)] at h
    cases s with
    | error d' =>
      cases h
      rfl
    | _ => cases h

/-- The errors of a text, or that of the evaluation of its tree. -/
theorem run_error {name : String} {w v : World} (h : run name text w = .ok (.error d) v) :
    Token.scan ⟨name, text⟩ = .error (.diagnostic d) ∨
      ∃ lexemes, Token.scan ⟨name, text⟩ = .ok lexemes ∧ (Grammar.parse lexemes = .error (.diagnostic d) ∨
        ∃ tree, Grammar.parse lexemes = .ok tree ∧ evaluate tree (programFrame name) w = .error (.error d) v) := by
  unfold run runText prepare at h
  split at h
  · next d' hscan =>
    cases h
    exact .inl hscan
  · cases h
  · next lexemes hscan =>
    refine .inr ⟨lexemes, hscan, ?_⟩
    split at h
    · next tree hparse => exact .inr ⟨tree, hparse, error_of_runTree h⟩
    · next d' hparse =>
      cases h
      exact .inl hparse
    · cases h
    · cases h

/-- The error that a program of a session ends with can be shown exactly if both ends of its place are known. The
calls around it always are, and its place is unless it is the report of an operator about its operands. -/
theorem report_shown_iff {files : Files} {input : String} {w v : World} (hw : Between files input w)
    {name text : String} {d : Diagnostic} (h : run name text w = .ok (.error d) v) :
    ((∃ report, d.render = .ok report) ↔ d.Placed) ∧ (∀ levels, d.kind = .runtime levels → Traced levels) ∧
      (¬ d.Placed → OperandReport d.details ∧ ∃ levels, d.kind = .runtime levels) := by
  suffices ha : d.Accounted from ⟨render_ok_iff ha.traced, ha.traced, ha.operand⟩
  rcases run_error h with hscan | ⟨lexemes, -, hparse | ⟨tree, -, htree⟩⟩
  · exact Token.scan_refused hscan
  · exact Grammar.parse_refused hparse
  · -- the contract does not depend on loop control, so nothing is asked of the tree
    have holds := Contract.holds_between (C := .reports) (fun hs => hs) (fun _ => trivial) trivial hw
    have keeps : Contract.reports.EvaluatorKeeps evaluate := Contract.evaluate_keeps .reports
    have hnode : Contract.reports.Demands True (tree.contained false) := fun _ hs => hs.elim
    have hk := (keeps (fun _ => Contract.knows_programFrame name) hnode [] w
      (by rw [htree]; exact ends_error.2 (by simp)) trivial).2 trivial holds
    rw [htree] at hk
    exact hk.1

namespace Sample

def opened : World := start ⟨"/w", [], "/h", []⟩ ""

def endsWith (p : Diagnostic → Bool) : Outcome Ending → Bool
  | .ok (.error d) _ => p d
  | _ => false

theorem run_of_endsWith {p : Diagnostic → Bool} {n : Nat}
    (h : endsWith p (runText (evaluateTo n) ⟨"<stdin>", text⟩ opened) = true) :
    ∃ d w, run "<stdin>" text opened = .ok (.error d) w ∧ p d = true := by
  generalize hr : runText (evaluateTo n) ⟨"<stdin>", text⟩ opened = r at h
  unfold endsWith at h
  split at h
  · next d w => exact ⟨d, w, (runText_approximates (evaluateTo_approximates n) _).eq_of_ok hr, h⟩
  · cases h

def dividing : String := "make function f(x):\n give x / 0;\nend;\nf(1);"

def isInCall (d : Diagnostic) : Bool :=
  d.start.isSome && d.stop.isSome &&
    match d.kind with
    | .runtime [inner, outer] => inner.name == "f" && outer.name == "<stdin>"
    | _ => false

theorem report_shown_in_call :
    ∃ d w inner outer, run "<stdin>" dividing opened = .ok (.error d) w ∧ d.kind = .runtime [inner, outer] ∧
      inner.name = "f" ∧ inner.entry.isSome = true ∧ ∃ report, d.render = .ok report := by
  obtain ⟨d, w, hrun, hd⟩ :=
    run_of_endsWith (show endsWith isInCall (runText (evaluateTo 12) ⟨"<stdin>", dividing⟩ opened) = true by
      decide +kernel)
  obtain ⟨hplaced, hkind⟩ := Bool.and_eq_true_iff.1 hd
  split at hkind
  · next inner outer hlevels =>
    obtain ⟨hshown, htraced, -⟩ := report_shown_iff .start hrun
    exact ⟨d, w, inner, outer, hrun, hlevels, beq_iff_eq.1 (Bool.and_eq_true_iff.1 hkind).1,
      htraced _ hlevels inner (by simp), hshown.2 (Bool.and_eq_true_iff.1 hplaced)⟩
  · cases hkind

def isUnplaced (d : Diagnostic) : Bool := d.stop.isNone && !d.render.isOk

/-- A list cannot be negated, but the number it would be multiplied with was not seen anywhere. -/
theorem report_not_shown :
    ∃ d w, run "<stdin>" "-[1];" opened = .ok (.error d) w ∧ d.stop = none ∧ ∀ report, d.render ≠ .ok report := by
  obtain ⟨d, w, hrun, hd⟩ :=
    run_of_endsWith (show endsWith isUnplaced (runText (evaluateTo 9) ⟨"<stdin>", "-[1];"⟩ opened) = true by
      decide +kernel)
  obtain ⟨hstop, hrender⟩ := Bool.and_eq_true_iff.1 hd
  refine ⟨d, w, hrun, Option.isNone_iff_eq_none.1 hstop, fun report h => ?_⟩
  rw [h] at hrender
  cases hrender

end Sample

end Session

end Utterance

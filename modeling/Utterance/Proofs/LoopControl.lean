import Utterance.Proofs.KeepingEvaluate

/-!
# Loop control stays in loops

`cut` and `skip` end or continue the innermost loop. Nothing but loops handles them on the way: they pass through
lists, arguments, handlers of errors and the bodies of functions. But if they stand in loops of the same function in
everything that is executed, then they never leave a whole program, a call or the bringing in of a module
(`loop_control_contained`). What has to be kept on the way is that loop control stays in the body of every function
that exists (`World.Contained`).
-/

namespace Utterance

open Eval

/-- Whether loop control is in its place in the source that an event executes. -/
def Event.contained : Event → Bool
  | .begun source _ => source.contained
  | .ran source => source.contained
  | _ => true

/-- Loop control is in its place in all modules and scripts that were executed. -/
def World.executesContained (w : World) : Bool := w.log.all Event.contained

/-- Loop control stays in the body of every function. -/
def World.Contained (w : World) : Prop := ∀ r, (w.cell r).payload.contained = true

/-- The contract of loop control, as far as the sources that are executed have it in its place. -/
def Contract.loops : Contract :=
  { Contract.loose with
    strict := True
    calm := fun log => log.all Event.contained = true
    calm_of_cons := fun {e log} h => by
      rw [List.all_cons, Bool.and_eq_true] at h
      exact h.2
    contained_of_begun := fun {source before log} _ h => by
      rw [List.all_cons, Bool.and_eq_true] at h
      exact h.1
    contained_of_ran := fun {source log} _ h => by
      rw [List.all_cons, Bool.and_eq_true] at h
      exact h.1
    levels_call := fun _ _ _ _ => trivial }

namespace World.Contained

theorem holds {w : World} (h : w.Contained) : Contract.loops.Holds w.loader.loading w :=
  ⟨rfl, trivial, fun r => ⟨fun _ _ => trivial, fun _ => h r⟩⟩

theorem of_holds {stack : List String} {w : World} (h : Contract.loops.Holds stack w) : w.Contained :=
  fun r => (h.cells r).contained trivial

theorem start (files : Files) (input : String) : (Session.start files input).Contained :=
  of_holds (Contract.holds_start (C := .loops) input trivial)

end World.Contained

/-- If loop control is in its place in what a computation executes, it stays in all functions, and it leaves the
computation only if that stands in a loop. -/
def Eval.Confines {α : Type} (inLoop : Bool) (x : Eval α) (w : World) : Prop :=
  Ends (x w) → (after (x w)).executesContained = true →
    (after (x w)).Contained ∧ ∀ v, x w = .error .cut v ∨ x w = .error .skip v → inLoop = true

theorem Contract.KeepsAt.confines {α : Type} {inLoop : Bool} {x : Eval α} {w : World} (hw : w.Contained)
    (h : Contract.loops.KeepsAt True inLoop w.loader.loading x w) : Confines inLoop x w := by
  intro ends executed
  have hend := (h ends executed).2 trivial hw.holds
  cases hr : x w with
  | ok a v =>
    rw [hr] at hend
    exact ⟨.of_holds hend, fun _ hv => by rcases hv with hv | hv <;> cases hv⟩
  | error s v =>
    rw [hr] at hend
    obtain ⟨allowed, left, hleft, -⟩ := hend
    -- also a signal leaves a world in which loop control stays in all functions
    refine ⟨.of_holds hleft, fun _ hv => ?_⟩
    rcases hv with hv | hv
    · cases hv
      exact allowed trivial
    · cases hv
      exact allowed trivial

/-- Where loop control stays in all functions, it leaves neither a whole program that has it in its place, nor a call,
nor the bringing in of a module, and a node only if that is contained in a loop; and it stays in all functions. No
function exists at the start of a session, so this holds all along a session whose programs have loop control in its
place. -/
theorem loop_control_contained {w : World} (hw : w.Contained) :
    (∀ source : Source, source.contained = true → Confines false (Session.run source.name source.text) w ∧
      ∀ lexemes tree frame, Token.scan source = .ok lexemes → Grammar.parse lexemes = .ok tree →
        Confines false (evaluate tree frame) w) ∧
    (∀ f args, Confines false (call evaluate f args) w) ∧
    (∀ span path items frame, Confines false (bring evaluate span path items frame) w) ∧
    (∀ node frame inLoop, node.contained inLoop = true → Confines inLoop (evaluate node frame) w) ∧
    ∀ files input, (Session.start files input).Contained := by
  have keeps : Contract.loops.EvaluatorKeeps evaluate := Contract.evaluate_keeps .loops
  have nodes (node : Node) (frame : Frame) (inLoop : Bool) (hn : node.contained inLoop = true) :
      Confines inLoop (evaluate node frame) w :=
    Contract.KeepsAt.confines hw (keeps (fun _ => trivial) (fun _ _ => hn) _ w)
  refine ⟨fun source hs => ⟨?_, fun lexemes tree frame hscan hparse => nodes tree frame false ?_⟩, fun f args => ?_,
    fun span path items frame => ?_, nodes, World.Contained.start⟩
  · exact Contract.KeepsAt.confines hw (Contract.session_keeps (fun _ _ => hs) _ w)
  · rwa [Source.contained_eq hscan hparse] at hs
  · exact Contract.KeepsAt.confines hw (Contract.call_keeps keeps args fun _ => trivial)
  · exact Contract.KeepsAt.confines hw (Contract.bring_keeps keeps (fun _ => trivial) span path items _ w)

namespace Sample

/-- The text of a module that defines a function with a loop that is cut. -/
def text : List UInt8 :=
  [109, 97, 107, 101, 32, 102, 117, 110, 99, 116, 105, 111, 110, 32, 102, 40, 41, 58, 10, 97, 115, 32, 108, 111,
   110, 103, 32, 97, 115, 32, 116, 114, 117, 101, 58, 10, 99, 117, 116, 10, 101, 110, 100, 10, 101, 110, 100]

def place : Position := ⟨0, 0, 0, ⟨"main", ""⟩⟩

def bringLooping (ev : Evaluator) : Eval Ref :=
  bring ev ⟨place, place⟩ ⟨.identifier, .text "m", place, place⟩ none (programFrame "main")

def defines : Outcome Ref → Bool
  | .ok _ w => w.executesContained && w.store.cells.any (·.payload.isFunction)
  | _ => false

def started : World := Session.start ⟨"/w", [(["m.uttr"], text)], "/h", []⟩ ""

/-- The module is loaded, and the function that it defines keeps its loop control. -/
theorem loop_control_contained_module :
    ∃ r w, bringLooping evaluate started = .ok r w ∧ w.store.cells.any (·.payload.isFunction) = true ∧
      w.executesContained = true ∧ w.Contained := by
  have hdefines : defines (bringLooping (evaluateTo 9) started) = true := by decide +kernel
  cases hr : bringLooping (evaluateTo 9) started with
  | error s v =>
    rw [hr] at hdefines
    cases hdefines
  | ok r w =>
    rw [hr] at hdefines
    obtain ⟨hexecuted, hfunction⟩ := Bool.and_eq_true_iff.1 hdefines
    have hbring : bringLooping evaluate started = .ok r w :=
      (bring_approximates (evaluateTo_approximates 9) _ _ _ _).eq_of_ok hr
    obtain ⟨-, -, hconfines, -⟩ := loop_control_contained (w := started) (.start _ _)
    have hw := hconfines ⟨place, place⟩ ⟨.identifier, .text "m", place, place⟩ none (programFrame "main")
    unfold Confines at hw
    rw [show bring _ _ _ _ _ _ = _ from hbring] at hw
    exact ⟨r, w, hbring, hfunction, hexecuted, (hw (ends_ok _ _) hexecuted).1⟩

end Sample

end Utterance

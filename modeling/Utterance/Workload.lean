import Utterance.Session

/-!
# Workloads

A workload is a text that keeps one part of the language busy. The two workloads here end where the scanner still
asks for a character, so preparing them is a fault.
-/

namespace Utterance

inductive Workload where
  | scanning | parsing
deriving DecidableEq, Repr

namespace Workload

def source : Workload → Source
  | scanning => ⟨"<lexer>", "1 > "⟩
  | parsing => ⟨"<parser>", "bring x as "⟩

def prepare (w : Workload) : Eval (Except Diagnostic Node) := Eval.prepare w.source

theorem prepare_faults (w : Workload) (world : World) : ∃ f, w.prepare world = .error (.fault f) world := by
  cases w <;> exact ⟨_, rfl⟩

end Workload

end Utterance

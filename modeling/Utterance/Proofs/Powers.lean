import Utterance.Proofs.LibraryFunctions

/-!
# Powers

The function `pow` of the library multiplies in a loop. After `k` rounds the result is the power with the exponent
`k + 1`, and the counter is this exponent; so for exponents that are not negative the loop ends with the power.
-/

namespace Utterance

open Script Library

def powTest : Script := .operator (.order .lt) (.name "i") (.name "exp")

def powRound : Script := .block [
  .put (.operator .mul (.name "result") (.name "base")) "result",
  .put (.operator .add (.name "i") (.int 1)) "i"]

def powCode : List Script := [
  .when (.operator .eq (.name "exp") (.int 0)) (.block [.give (.int 1)]),
  .put (.name "base") "result",
  .put (.int 1) "i",
  .loop powTest powRound,
  .give (.name "result")]

set_option maxRecDepth 8000 in
noncomputable def powRead : { cs // mathText = String.ofList cs ∧
    DefinedIn (statements cs) "pow" ["base", "exp"] (.block powCode) } :=
  ⟨_, rfl, by decide +kernel⟩

theorem pow_defined : Defined mathText "pow" ["base", "exp"] (.block powCode) := ⟨powRead, powRead.2⟩

def powPlan (b : Int) (n k : Nat) : Plan where
  known := [("exp", .datum (.int (n + 1 : Nat))), ("base", .datum (.int b)), ("result", .datum (.int (b ^ (k + 1)))),
    ("i", .datum (.int (k + 1 : Nat)))]
  own := none

theorem powTest_has (b : Int) (n k : Nat) : Has (powPlan b n k).all powTest (.int (if k < n then 1 else 0)) :=
  .order (.name rfl) (.name rfl) (by simp [Scalar.Order.Orders])

theorem powRound_acts (b : Int) (n k : Nat) : Acts (powPlan b n k) powRound (.falls (powPlan b n (k + 1))) := by
  have hpower : Has (powPlan b n k).all (.operator .mul (.name "result") (.name "base")) (.int (b ^ (k + 2))) :=
    (Has.mul (.name rfl) (.name rfl)).int_eq (pow_succ b (k + 1)).symm
  exact .block (.cons (.put hpower) (.cons (.put (.add (.name rfl) (.int 1))) .nil))

theorem pow_does (b : Int) (n : Nat) :
    Does ⟨[("exp", .datum (.int n)), ("base", .datum (.int b))], none⟩ powCode (.gives (.int (b ^ n))) := by
  cases n with
  | zero =>
    rw [pow_zero]
    exact .stop (.choice (.equal (.name rfl) (.int 0)) (fun _ => .block (.stop (.give (.int 1)))) (absurd rfl))
  | succ n =>
    refine .cons (.choice (.equal (.name rfl) (.int 0)) (fun h => absurd h (by omega)) fun _ => rfl) ?_
    have hloop := Acts.loop n (fun k _ => powTest_has b n k) fun k _ => powRound_acts b n k
    exact .cons (.put (.int_eq (m := b) (.name rfl) (pow_one b).symm))
      (.cons (.put (.int 1)) (.cons hloop (.stop (.give (.name rfl)))))

/-- `pow` ends for every exponent that is not negative, with exactly the power, and so powers of sums are products. -/
theorem pow_computes (b : Int) :
    Computes mathText "pow" [] [.int b, .int 0] (.int 1) ∧
    (∀ n : Nat, Computes mathText "pow" [] [.int b, .int n] (.int (b ^ n))) ∧
    ∀ {m n : Nat} {x y z : Int}, Gave mathText "pow" [] [.int b, .int m] (.int x) →
      Gave mathText "pow" [] [.int b, .int n] (.int y) →
      Gave mathText "pow" [] [.int b, .int (m + n)] (.int z) → z = x * y := by
  have hpow (n : Nat) : Computes mathText "pow" [] [.int b, .int n] (.int (b ^ n)) :=
    pow_defined.computes rfl (pow_does b n)
  have hgave {n : Nat} {x : Int} (hx : Gave mathText "pow" [] [.int b, .int n] (.int x)) : x = b ^ n := by
    obtain ⟨s, r, hpower, hx⟩ := (hpow n).denotes hx
    exact Scalar.int.inj (Payload.number.inj (hx.2.symm.trans hpower.2))
  refine ⟨pow_zero b ▸ hpow 0, hpow, fun {m n x y z} hx hy hz => ?_⟩
  rw [hgave hx, hgave hy, hgave (n := m + n) hz, pow_add]

/-- `pow(-2, 5)`, and `pow(0, 0)`. -/
theorem pow_computes_signed :
    Gave mathText "pow" [] [.int (-2), .int 5] (.int (-32)) ∧
    Gave mathText "pow" [] [.int 0, .int 0] (.int 1) := by
  have written {a b : Int} : ∀ d ∈ [Datum.int a, .int b], Written d := by
    simp [written_int]
  exact ⟨pow_defined.gave written ((pow_computes (-2)).2.1 5), pow_defined.gave written (pow_computes 0).1⟩

end Utterance

import CallExpr.Eval.Builtin
import CallExpr.Proofs.Doubles

/-!
# Comparing integers

* `Builtin.eq_integers`: integers are compared as the nearest doubles, so that large ones may be equal to each other.
* `Builtin.eq_large_integers`: two such integers.
-/

namespace CallExpr.Builtin

open Rounding

/-- **Integers are compared after rounding** to 53 significant bits. Integers that count as equal differ by one part in
`2 ^ 52` at most, and integers of up to 53 bits are compared exactly. -/
theorem eq_integers (name : String) (a b : Int64) (n : Nat) :
    ∃ v, eq.behaviour.run name [.integer a, .integer b] n = .done (.ok (.boolean v)) ∧
      (v = true ↔ nearest a.toInt = nearest b.toInt) ∧
      (v = true → 2 ^ 53 * (a.toInt - b.toInt).natAbs ≤ a.toInt.natAbs + b.toInt.natAbs) ∧
      (a.toInt.natAbs ≤ 2 ^ 53 → b.toInt.natAbs ≤ 2 ^ 53 → (v = true ↔ a = b)) := by
  have hiff := Double.floatOfInt64_beq_iff a b
  refine ⟨floatOfInt64 a == floatOfInt64 b, rfl, hiff, fun hv => ?_, fun ha hb => ?_⟩
  · have hsame := hiff.mp hv
    have ha := nearest_error a.toInt
    have hb := nearest_error b.toInt
    omega
  · rw [hiff, nearest_of_le ha, nearest_of_le hb, Int64.toInt_inj]

/-- The next integer after `2 ^ 53` counts as equal to it. -/
theorem eq_large_integers :
    ¬ ∀ a b : Int64, eq.behaviour.run "eq" [.integer a, .integer b] 2 = .done (.ok (.boolean true)) ↔ a = b := by
  intro h
  have hequal : eq.behaviour.run "eq" [.integer 9007199254740992, .integer 9007199254740993] 2 =
      .done (.ok (.boolean true)) := rfl
  exact absurd ((h _ _).mp hequal) (by decide)

end CallExpr.Builtin

import CallExpr.Decimal.Binary

/-!
# The shortest decimal of a double

* `Readings.multiple?`: the multiple of a power of ten that is read as the double and lies nearest to it.
* `shortest`: the coarsest decimal that is read as the double, the nearest of those.
-/

namespace CallExpr.Decimal

/-- The number `coefficient * 10 ^ exponent`. -/
structure Scaled where
  coefficient : Nat
  exponent : Int
  deriving DecidableEq, Repr

namespace Readings

/-- Of the two multiples of `unit` around the value, the one that is read as the double; of two the nearer one, and the
upper one if both are as near. The result counts units. -/
def multiple? (r : Readings) (unit : Nat) : Option Nat :=
  let k := r.value / unit
  let below := k * unit
  let above := (k + 1) * unit
  if r.contains below then
    if r.contains above && above - r.value ≤ r.value - below then some (k + 1) else some k
  else if r.contains above then some (k + 1)
  else none

/-- The largest power of ten, at most `10 ^ p`, that has a multiple among the readings, with that multiple. The value
itself is a multiple of one. -/
def coarsest (r : Readings) : (p : Nat) → Nat × Nat
  | 0 => (0, r.value)
  | p + 1 =>
    match r.multiple? (Nat.pow 10 (p + 1)) with
    | some k => (p + 1, k)
    | none => coarsest r p

/-- No multiple of a larger power of ten lies below the upper end: `10 ^ p ≤ high` gives `8 ^ p ≤ high`. -/
def largestPower (r : Readings) : Nat :=
  r.high.log2 / 3

end Readings

/-- The decimal with the fewest digits that is read as `b`, the nearest to `b` of those. -/
def shortest (b : Binary) : Scaled :=
  let r := Readings.ofBinary b
  let (p, k) := r.coarsest r.largestPower
  ⟨k, p - r.scale⟩

end CallExpr.Decimal

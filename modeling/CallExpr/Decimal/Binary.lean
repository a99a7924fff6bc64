/-!
# Doubles as binary fractions

* `Binary`: the number `mantissa * 2 ^ exponent`.
* `Binary.ofFloat`: the absolute value of a finite double.
* `Readings`: the numbers that are read as that double, on a common decimal scale.
-/

namespace CallExpr.Decimal

/-- The number `mantissa * 2 ^ exponent`. -/
structure Binary where
  mantissa : Nat
  exponent : Int
  deriving DecidableEq, Repr

namespace Binary

/-- Bits of the stored fraction. -/
def fractionBits : Nat := 52

/-- The least exponent of a double, that of the numbers below the normal ones. -/
def leastExponent : Int := -1074

/-- The absolute value of the finite double `x`. -/
def ofFloat (x : Float) : Binary :=
  let bits := x.toBits.toNat
  let fraction := bits % Nat.pow 2 fractionBits
  let biased := bits / Nat.pow 2 fractionBits % Nat.pow 2 11
  if biased = 0 then ⟨fraction, leastExponent⟩
  else ⟨Nat.pow 2 fractionBits + fraction, leastExponent + (biased - 1 : Nat)⟩

/-- Is the next smaller double half as far away as the next larger one? So it is at the powers of two. -/
def isPowerBorder (b : Binary) : Bool :=
  b.mantissa = Nat.pow 2 fractionBits && leastExponent < b.exponent

end Binary

/-- The numbers that are read as one double. All three bounds are multiples of `10 ^ -scale`. -/
structure Readings where
  low : Nat
  value : Nat
  high : Nat
  scale : Nat
  /-- Do the two ends belong to the interval? -/
  closed : Bool
  deriving DecidableEq, Repr

namespace Readings

/-- A quarter of the last place of `b` is `quarter b * 10 ^ -scale b`. -/
def quarter (b : Binary) : Nat :=
  if 2 ≤ b.exponent then Nat.pow 2 (b.exponent - 2).toNat else Nat.pow 5 (2 - b.exponent).toNat

def scaleOf (b : Binary) : Nat :=
  (2 - b.exponent).toNat

/-- Half a place on either side of `b`, a quarter below it at the powers of two. A number half way between two doubles
is read as the one with the even mantissa. -/
def ofBinary (b : Binary) : Readings where
  low := (4 * b.mantissa - if b.isPowerBorder then 1 else 2) * quarter b
  value := 4 * b.mantissa * quarter b
  high := (4 * b.mantissa + 2) * quarter b
  scale := scaleOf b
  closed := b.mantissa % 2 = 0

/-- Is `n * 10 ^ -scale` read as the double? -/
def contains (r : Readings) (n : Nat) : Bool :=
  if r.closed then r.low ≤ n && n ≤ r.high else r.low < n && n < r.high

end Readings

end CallExpr.Decimal

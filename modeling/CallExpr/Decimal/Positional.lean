import CallExpr.Decimal.Shortest

/-!
# Positional text of a double

* `Scaled.positional`: all digits of a decimal, without an exponent.
* `text`: the text of a double; a whole number has no fraction, and the sign of zero is kept.
-/

namespace CallExpr.Decimal

/-- The decimal written out: no exponent, and a point only if digits follow it. -/
def Scaled.positional (d : Scaled) : List Char :=
  let digits := Nat.toDigits 10 d.coefficient
  if 0 ≤ d.exponent then digits ++ List.replicate d.exponent.toNat '0'
  else
    let places := (-d.exponent).toNat
    if places < digits.length then
      digits.take (digits.length - places) ++ '.' :: digits.drop (digits.length - places)
    else '0' :: '.' :: List.replicate (places - digits.length) '0' ++ digits

/-- The text of the absolute value of a double that is a number. -/
def magnitude (x : Float) : List Char :=
  if x.isInf then ['i', 'n', 'f']
  else
    match Binary.ofFloat x with
    | ⟨0, _⟩ => ['0']
    | b => (shortest b).positional

/-- The shortest positional text that is read as `x`. -/
def text (x : Float) : String :=
  if x.isNaN then "NaN"
  else if x.toBits.toNat < Nat.pow 2 63 then .ofList (magnitude x)
  else .ofList ('-' :: magnitude x)

end CallExpr.Decimal

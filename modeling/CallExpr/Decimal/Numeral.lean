/-!
# Numerals

* `integer?`: a word of digits with an optional sign, read as an integer.
* `Numeral.read?`: a word with an optional sign, point and exponent.
* `Numeral.toFloat`: the double nearest to a numeral.
-/

namespace CallExpr.Decimal

/-- The number that a list of digits denotes. -/
def ofDigits (digits : List Char) : Nat :=
  Nat.ofDigitChars 10 digits 0

/-- Is the word a non-empty run of the digits from 0 to 9? -/
def isDigits (cs : List Char) : Bool :=
  !cs.isEmpty && cs.all Char.isDigit

/-- Takes an optional sign off a word: is it a minus, and what follows? -/
def signed : List Char → Bool × List Char
  | '-' :: cs => (true, cs)
  | '+' :: cs => (false, cs)
  | cs => (false, cs)

/-- Reads a word of digits with an optional sign. -/
def integer? (cs : List Char) : Option Int :=
  let (negative, digits) := signed cs
  if isDigits digits then some (if negative then -(ofDigits digits : Int) else ofDigits digits) else none

/-- The number `coefficient * 10 ^ exponent`, with a sign that is kept at zero too. -/
structure Numeral where
  negative : Bool
  coefficient : Nat
  exponent : Int
  deriving DecidableEq, Repr

namespace Numeral

/-- Reads the exponent at the end of a word; without one it is zero. -/
def exponent? : List Char → Option Int
  | [] => some 0
  | c :: cs => if c = 'e' ∨ c = 'E' then integer? cs else none

/-- Takes the digits behind a point off a word. -/
def fraction : List Char → List Char × List Char
  | '.' :: cs => cs.span Char.isDigit
  | cs => ([], cs)

/-- Reads a word: an optional sign, digits with an optional point before, between or behind them, and an optional
exponent. -/
def read? (cs : List Char) : Option Numeral :=
  let (negative, cs) := signed cs
  let (whole, cs) := cs.span Char.isDigit
  let (places, cs) := fraction cs
  if whole.isEmpty && places.isEmpty then none
  else (exponent? cs).map fun e => ⟨negative, ofDigits (whole ++ places), e - places.length⟩

/-- A number of `10 ^ overflowPower` or more is beyond every double. -/
def overflowPower : Int := 310

/-- A number below `10 ^ underflowPower` is nearest to zero. -/
def underflowPower : Int := -330

/-- The double nearest to `coefficient * 10 ^ exponent`. -/
def toMagnitude (n : Numeral) : Float :=
  let top : Int := n.exponent + (Nat.toDigits 10 n.coefficient).length
  if n.coefficient = 0 ∨ top ≤ underflowPower then 0
  else if overflowPower < top then 1 / 0
  else if 0 ≤ n.exponent then .ofScientific n.coefficient false n.exponent.toNat
  else .ofScientific n.coefficient true (-n.exponent).toNat

/-- The double nearest to the numeral. -/
def toFloat (n : Numeral) : Float :=
  if n.negative then -n.toMagnitude else n.toMagnitude

end Numeral

end CallExpr.Decimal

import CallExpr.Decimal.Positional
import CallExpr.Decimal.Numeral

/-!
# Values

* `Value`: a 64-bit integer, a double, a text or a truth value.
* `Value.text`, `Value.truthy`, `Value.kind`: how a value is written, whether it counts as true, and which kind it has.
* `Value.ofWord?`: the number that a word denotes.
-/

namespace CallExpr

/-- The value of an expression. -/
inductive Value where
  | integer (n : Int64)
  | float (x : Float)
  | text (s : String)
  | boolean (b : Bool)
  deriving Inhabited

/-- The four kinds of values. -/
inductive Kind where
  | integer
  | float
  | text
  | boolean
  deriving DecidableEq, Repr

/-- The name of a kind in messages. -/
def Kind.name : Kind → String
  | integer => "integer"
  | float => "float"
  | text => "text"
  | boolean => "boolean"

/-- The integer in 64 bits, if it is in range. -/
def int64? (n : Int) : Option Int64 :=
  if Int64.minValue.toInt ≤ n ∧ n ≤ Int64.maxValue.toInt then some (.ofInt n) else none

/-- The double nearest to an integer; of two the one with the even mantissa. -/
def floatOfInt64 (n : Int64) : Float :=
  .ofInt n.toInt

namespace Value

def kind : Value → Kind
  | integer _ => .integer
  | float _ => .float
  | text _ => .text
  | boolean _ => .boolean

/-- Values of different kinds differ. Doubles are compared as numbers, so the two zeros are equal and that which is not
a number differs from itself. -/
def same : Value → Value → Bool
  | integer m, integer n => m == n
  | float x, float y => x == y
  | text s, text t => s == t
  | boolean b, boolean c => b == c
  | _, _ => false

/-- A number is false if it is zero and a text if it is empty. -/
def truthy : Value → Bool
  | integer n => n != 0
  | float x => x != 0
  | text s => !s.isEmpty
  | boolean b => b

/-- How the value is written: a text without quotes. -/
def write : Value → String
  | integer n => toString n.toInt
  | float x => Decimal.text x
  | text s => s
  | boolean b => if b then "true" else "false"

/-- The content of a text. -/
def text? : Value → Option String
  | text s => some s
  | _ => none

/-- A number as a double. -/
def float? : Value → Option Float
  | integer n => some (floatOfInt64 n)
  | float x => some x
  | _ => none

/-- The number that a word denotes: an integer if it has only digits and is in range, else a double, which has to be
finite. -/
def ofWord? (s : String) : Option Value :=
  let cs := s.toList
  match (Decimal.integer? cs).bind int64? with
  | some n => some (integer n)
  | none =>
    match (Decimal.Numeral.read? cs).map Decimal.Numeral.toFloat with
    | some x => if x.isFinite then some (float x) else none
    | none => none

end Value

end CallExpr

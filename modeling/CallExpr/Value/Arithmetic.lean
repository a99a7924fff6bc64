import CallExpr.Value.Basic

/-!
# Arithmetic on values

* `Failure`: why a function cannot give a value.
* `combineAll`: a sum or product of one or more numbers, from left to right.
* `subtract`, `divide`, `equals`: the functions of two arguments.

Integers are combined exactly. A result out of range is a failure, and one double among the arguments makes the result a
double.
-/

namespace CallExpr

/-- How many arguments a function takes. -/
inductive Arity where
  | exactly (n : Nat)
  | atLeast (n : Nat)
  deriving DecidableEq, Repr

def Arity.write : Arity → String
  | exactly n => toString n
  | atLeast n => s!"at least {n}"

/-- Why a function fails. The function is given by the name of the call. -/
inductive Failure where
  | arity (function : String) (expected : Arity) (found : Nat)
  | kind (function : String) (found : Kind)
  | divisionByZero
  | overflow (function : String)
  | custom (message : String)
  deriving DecidableEq, Repr

def Failure.message : Failure → String
  | arity function expected found => s!"{function} expects {expected.write} argument(s), got {found}"
  | kind function found => s!"{function} expects numbers, got {found.name}"
  | divisionByZero => "division by zero"
  | overflow function => s!"integer overflow in {function}"
  | custom message => message

/-- A value that is a number. -/
inductive Number where
  | integer (n : Int64)
  | float (x : Float)

namespace Number

def toValue : Number → Value
  | integer n => .integer n
  | float x => .float x

def toFloat : Number → Float
  | integer n => floatOfInt64 n
  | float x => x

/-- The number that `v` is. -/
def ofValue (function : String) : Value → Except Failure Number
  | .integer n => .ok (integer n)
  | .float x => .ok (float x)
  | v => .error (.kind function v.kind)

/-- An integer that has to be in range. -/
def narrow (function : String) (n : Int) : Except Failure Number :=
  match int64? n with
  | some n => .ok (integer n)
  | none => .error (.overflow function)

end Number

/-- An operation on numbers: what it does with integers and with doubles. -/
structure Operation where
  exact : Int → Int → Int
  rounded : Float → Float → Float

namespace Operation

def sum : Operation := ⟨(· + ·), (· + ·)⟩

def product : Operation := ⟨(· * ·), (· * ·)⟩

def difference : Operation := ⟨(· - ·), (· - ·)⟩

/-- Two integers give an integer; else both are taken as doubles. -/
def apply (op : Operation) (function : String) : Number → Number → Except Failure Number
  | .integer m, .integer n => Number.narrow function (op.exact m.toInt n.toInt)
  | a, b => .ok (.float (op.rounded a.toFloat b.toFloat))

/-- Combines `acc` with each value, from left to right. -/
def combineFrom (op : Operation) (function : String) (acc : Number) : List Value → Except Failure Number
  | [] => .ok acc
  | v :: vs => do
    let acc ← op.apply function acc (← Number.ofValue function v)
    combineFrom op function acc vs

end Operation

namespace Arithmetic

/-- Combines one or more numbers, from left to right. -/
def combineAll (op : Operation) (function : String) : List Value → Except Failure Value
  | [] => .error (.arity function (.atLeast 1) 0)
  | v :: vs => do
    let first ← Number.ofValue function v
    return (← op.combineFrom function first vs).toValue

/-- The two arguments of a function. -/
def two (function : String) : List Value → Except Failure (Value × Value)
  | [a, b] => .ok (a, b)
  | vs => .error (.arity function (.exactly 2) vs.length)

/-- The two arguments of a function on numbers. -/
def twoNumbers (function : String) (vs : List Value) : Except Failure (Number × Number) := do
  let (a, b) ← two function vs
  return (← Number.ofValue function a, ← Number.ofValue function b)

def subtract (function : String) (vs : List Value) : Except Failure Value := do
  let (a, b) ← twoNumbers function vs
  return (← Operation.difference.apply function a b).toValue

/-- The quotient of two integers if it is an integer in range, else that of the two as doubles. -/
def quotient : Number → Number → Except Failure Number
  | .integer m, .integer n =>
    if n.toInt = 0 then .error .divisionByZero
    else
      match if n.toInt ∣ m.toInt then int64? (m.toInt / n.toInt) else none with
      | some q => .ok (.integer q)
      | none => .ok (.float (floatOfInt64 m / floatOfInt64 n))
  | a, b => .ok (.float (a.toFloat / b.toFloat))

def divide (function : String) (vs : List Value) : Except Failure Value := do
  let (a, b) ← twoNumbers function vs
  return (← quotient a b).toValue

/-- Two numbers are compared as doubles, other values as they are. -/
def equals (function : String) (vs : List Value) : Except Failure Value := do
  let (a, b) ← two function vs
  match a.float?, b.float? with
  | some x, some y => return .boolean (x == y)
  | _, _ => return .boolean (a.same b)

/-- The texts of the values, one after the other. -/
def concatenate (vs : List Value) : Value :=
  .text (String.join (vs.map Value.write))

end Arithmetic

end CallExpr

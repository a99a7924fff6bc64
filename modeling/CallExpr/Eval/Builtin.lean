import CallExpr.Eval.Callable

/-!
# Builtin functions

* `Builtin`: the functions that are there from the start.
* `Builtin.callable`: what each of them does, under whatever name it is called.
* `Registry.withBuiltins`: all of them under their own names.
-/

namespace CallExpr

/-- The builtin functions, in the order in which they are registered. -/
inductive Builtin where
  | add
  | mul
  | sub
  | div
  | concat
  | eq
  | choose
  deriving DecidableEq, Repr

namespace Builtin

def all : List Builtin :=
  [add, mul, sub, div, concat, eq, choose]

def name : Builtin → String
  | add => "add"
  | mul => "mul"
  | sub => "sub"
  | div => "div"
  | concat => "concat"
  | eq => "eq"
  | choose => "if"

/-- The builtin with this name. -/
def ofName? (name : String) : Option Builtin :=
  all.find? fun b => b.name == name

/-- Evaluates the second argument if the condition is true, else the third. -/
def chooseBranch : Except EvalError Value → Script 3
  | .ok condition => .evaluate (if condition.truthy then 1 else 2) .done
  | .error e => .done (.error e)

/-- Evaluates the condition, then one of the other arguments. -/
def chooseScript (name : String) : (n : Nat) → Script n
  | 3 => .evaluate 0 chooseBranch
  | n => .done (.error (.failed (.arity name (.exactly 3) n)))

/-- A function of the values alone. -/
def ofValues (run : String → List Value → Except Failure Value) : Behaviour :=
  ⟨.eager, fun name values _ => .done ((run name values).mapError .failed)⟩

def behaviour : Builtin → Behaviour
  | add => ofValues (Arithmetic.combineAll .sum)
  | mul => ofValues (Arithmetic.combineAll .product)
  | sub => ofValues Arithmetic.subtract
  | div => ofValues Arithmetic.divide
  | concat => ofValues fun _ values => .ok (Arithmetic.concatenate values)
  | eq => ofValues Arithmetic.equals
  | choose => ⟨.lazy, fun name _ => chooseScript name⟩

def callable (b : Builtin) : Callable where
  behaviour := b.behaviour

end Builtin

namespace Registry

/-- Registers the builtin functions under their own names. -/
def addBuiltins (r : Registry) : Registry × List EvalEvent :=
  r.registerAll (Builtin.all.map fun b => (b.name, b.callable))

/-- The builtin functions and no others. -/
def withBuiltins : Registry :=
  empty.addBuiltins.1

end Registry

end CallExpr

import CallExpr.Store.Basic
import CallExpr.Value.Arithmetic

/-!
# Errors and notes of an evaluation

* `EvalError`: why an expression has no value.
* `Note`: what a function reports beside its value.
-/

namespace CallExpr

/-- Why an expression has no value. -/
inductive EvalError where
  /-- The token has no entry. -/
  | dangling (token : Token)
  /-- The variable has no value. -/
  | unbound (name : String)
  /-- No function has this name. -/
  | undefined (name : String)
  /-- One expression was wanted, and there were `found`. -/
  | notSingle (found : Nat)
  /-- A function was called and failed. -/
  | failed (failure : Failure)
  /-- The chain of references that leads to the token is longer than the limit. -/
  | tooDeep (token : Token)
  deriving DecidableEq, Repr

def EvalError.message : EvalError → String
  | dangling token => s!"token {token.write} has no entry in the token store"
  | unbound name => s!"no value for variable `{name}`"
  | undefined name => s!"unknown function `{name}`"
  | notSingle found => s!"expected a single expression, found {found}"
  | failed failure => failure.message
  | tooDeep token => s!"token {token.write} is nested too deep"

/-- What a function reports beside its value. -/
inductive Note where
  /-- When the function was registered: was `name` defined? -/
  | registered (name : String) (defined : Bool)
  /-- The function was called with these values. -/
  | called (name : String) (arguments : List Value)
  /-- The function was called with these expressions, which it did not evaluate. -/
  | quoted (name : String) (arguments : List (Option Entry))
  /-- An argument had no value. -/
  | caught (error : EvalError)

end CallExpr

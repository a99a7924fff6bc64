import CallExpr.Eval.Environment
import CallExpr.Store.Term

/-!
# The meaning of a term

The value of an expression, said by recursion on the term and without a store.

* `Script.Blind`: a function that does not look at its arguments but through their values.
* `Environment.meaning`: the value of a term, with the names and numbers of values of the calls that are carried out.
-/

namespace CallExpr

/-- The script asks for no token and no entry. -/
def Script.Blind {n : Nat} : Script n → Prop
  | .done _ => True
  | .note _ next => next.Blind
  | .inspect _ _ => False
  | .evaluate _ next => ∀ r, (next r).Blind

/-- What the function does depends on the name of the call, and on the values of its arguments. -/
def Behaviour.Blind (b : Behaviour) : Prop :=
  ∀ name values n, (b.run name values n).Blind

/-- Every function of the registry is blind. -/
def Registry.Blind (r : Registry) : Prop :=
  ∀ name c, r.get? name = some c → c.behaviour.Blind

/-- The call that an event carries out: its name and the number of values. -/
def EvalEvent.dispatch? : EvalEvent → Option (String × Nat)
  | dispatched _ name values => some (name, values)
  | _ => none

/-- Runs a blind script, given the meanings of the arguments. -/
def Script.meaning {n : Nat} (arguments : Fin n → Traced (String × Nat) EvalError Value) :
    Script n → Traced (String × Nat) EvalError Value
  | .done result => .ofExcept result
  | .note _ next => next.meaning arguments
  | .inspect i next => (next ⟨i⟩ none).meaning arguments
  | .evaluate i next => (arguments i).observe fun result => (next result).meaning arguments

namespace Environment

variable (env : Environment)

/-- The meaning of a call, given those of its arguments. -/
def callMeaning (name : String) (arguments : List (Traced (String × Nat) EvalError Value)) :
    Traced (String × Nat) EvalError Value :=
  match env.registry.get? name with
  | none => .fail (.undefined name)
  | some callable => do
    let values ← callable.behaviour.strategy.gather id arguments
    .emit (name, values.length)
    (callable.behaviour.run name values arguments.length).meaning fun i => arguments.get i

mutual

/-- The value of a term. -/
def meaning : Term → Traced (String × Nat) EvalError Value
  | .literal content => pure (.text content)
  | .variable name => .ofExcept ((env.resolve name).elim (.error (.unbound name)) .ok)
  | .missing t => .fail (.dangling t)
  | .call name arguments => env.callMeaning name (meanings arguments)

/-- The values of terms, each for itself. -/
def meanings : List Term → List (Traced (String × Nat) EvalError Value)
  | [] => []
  | t :: ts => meaning t :: meanings ts

end

end Environment

end CallExpr

import CallExpr.Eval.Callable
import CallExpr.Eval.Bindings
import CallExpr.Store.Forest

/-!
# Evaluation

* `Script.run`: the steps of a function, given how its arguments are evaluated.
* `Environment.evaluateWithin`: the value of a token, with a limit on the nesting.
* `Environment.evaluateAt`, `Environment.evaluate`, `Environment.evaluateAll`: the value of a token, of a forest with
  one expression, and of each expression of a forest.
-/

namespace CallExpr

/-- Runs the steps of a function. -/
def Script.run {n : Nat} (inspect : Fin n → Token × Option Entry)
    (evaluate : Fin n → Traced EvalEvent EvalError Value) : Script n → Traced EvalEvent EvalError Value
  | .done result => .ofExcept result
  | .note report next => do
    .emit (.noted report)
    next.run inspect evaluate
  | .inspect i next => (next (inspect i).1 (inspect i).2).run inspect evaluate
  | .evaluate i next => (evaluate i).observe fun result => (next result).run inspect evaluate

/-- The functions and variables that give an expression its value. -/
structure Environment where
  registry : Registry
  resolve : Variables

namespace Environment

/-- The value of a token, in which at most `depth` entries are nested. A name without a function is an error before
any argument is looked at. The arguments of a function that is not lazy are evaluated from left to right, and the
first error is the error of the call. -/
def evaluateWithin (env : Environment) (s : Store) : (depth : Nat) → Token → Traced EvalEvent EvalError Value
  | 0, t => .fail (.tooDeep t)
  | depth + 1, t =>
    match s.get? t with
    | none => .fail (.dangling t)
    | some (.literal content) => pure (.text content)
    | some (.variable name) => .ofExcept ((env.resolve name).elim (.error (.unbound name)) .ok)
    | some (.call name arguments) =>
      match env.registry.get? name with
      | none => .fail (.undefined name)
      | some callable => do
        let values ← callable.behaviour.strategy.gather (env.evaluateWithin s depth) arguments
        .emit (.dispatched t name values.length)
        (callable.behaviour.run name values arguments.length).run (fun i => (arguments[i], s.get? arguments[i]))
          (fun i => env.evaluateWithin s depth arguments[i])

/-- The value of a token. In a store without cycles no chain of references is longer than the store. -/
def evaluateAt (env : Environment) (s : Store) (t : Token) : Traced EvalEvent EvalError Value :=
  env.evaluateWithin s (s.size + 1) t

/-- The values of all expressions, up to the first error. -/
def evaluateAll (env : Environment) (f : Forest) : Traced EvalEvent EvalError (List Value) :=
  f.roots.mapM (env.evaluateAt f.store)

/-- The value of a forest that has one expression. -/
def evaluate (env : Environment) (f : Forest) : Traced EvalEvent EvalError Value :=
  match f.roots with
  | [root] => env.evaluateAt f.store root
  | roots => .fail (.notSingle roots.length)

end Environment

end CallExpr

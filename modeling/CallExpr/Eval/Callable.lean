import CallExpr.Eval.Error
import CallExpr.Named
import CallExpr.Traced

/-!
# Functions that a call can name

* `Script`: what a function does when it runs.
* `Strategy.gather`: the values that a function gets before it runs.
* `Callable`: a function, given the name of the call and its arguments.
* `Registry`: the functions by name.

A function that is not lazy gets the values of its arguments. Each function sees how many arguments there are, and can
ask for the token, the entry or the value of one of them by its position. It cannot reach any other expression, and it
does not remember the calls before. What follows for results about all registries:

* In a result about one store, no function is left out that merely looks at other tokens. The registry is any registry,
  so it may be chosen for the store, and its functions may have the entries of the store as constants.
* Nor is a function left out there that remembers, as long as no call is carried out twice. What it remembers when it
  runs is then settled by the call that it runs for. In a forest that was read no other call has the tokens of these
  arguments; calls without arguments have to be told apart by their names.
* A run carries out a call twice if a lazy function asks for an argument again. The bounds on errors and on nesting hold
  for each result alone, and do not need that a function which runs again does the same.
* Results that compare two stores or two environments do need it, and that a function is kept to its arguments: one that
  looks at other tokens can tell a store from a larger one, and one that remembers the second run from the first.
-/

namespace CallExpr

/-- The steps of a function with `n` arguments. -/
inductive Script (n : Nat) where
  | done (result : Except EvalError Value)
  | note (note : Note) (next : Script n)
  /-- Looks at an argument without evaluating it. For other tokens there is no such step; a function that is made for
  one store may know their entries beforehand. -/
  | inspect (argument : Fin n) (next : Token → Option Entry → Script n)
  /-- Evaluates an argument and goes on with the result. -/
  | evaluate (argument : Fin n) (next : Except EvalError Value → Script n)

/-- Are the arguments of a function evaluated before it runs? -/
inductive Strategy where
  | eager
  | lazy
  deriving DecidableEq, Repr

/-- The values that a function gets: of all its arguments from left to right, up to the first error, or none. -/
def Strategy.gather {ω ε α : Type} (strategy : Strategy) (evaluate : α → Traced ω ε Value) (arguments : List α) :
    Traced ω ε (List Value) :=
  match strategy with
  | .eager => arguments.mapM evaluate
  | .lazy => pure []

/-- What a function does. Nothing is kept from call to call: the steps depend on what the function is given here, and on
what it sees of its arguments. -/
structure Behaviour where
  strategy : Strategy
  /-- The steps, given the name of the call, the values of the arguments and their number. A lazy function gets no
  values. -/
  run : String → List Value → (n : Nat) → Script n

/-- A function, and what it reports when it is registered, given which names are defined. -/
structure Callable where
  behaviour : Behaviour
  announce : (String → Bool) → List Note := fun _ => []

/-- An event of an evaluation. -/
inductive EvalEvent where
  | registered (name : String)
  /-- The function of a call runs with so many values. -/
  | dispatched (call : Token) (name : String) (values : Nat)
  | noted (note : Note)

/-- The functions by name. -/
structure Registry where
  callables : Named Callable := .empty

namespace Registry

def empty : Registry := {}

def get? (r : Registry) (name : String) : Option Callable :=
  r.callables.get? name

/-- Is there a function of this name? -/
def defines (r : Registry) (name : String) : Bool :=
  r.callables.contains name

/-- Registers a function in place of the one of that name. It reports on the names defined before. -/
def register (r : Registry) (name : String) (callable : Callable) : Registry × List EvalEvent :=
  (⟨r.callables.put name callable⟩, .registered name :: (callable.announce r.defines).map .noted)

/-- Registers functions one after the other. -/
def registerAll (r : Registry) : List (String × Callable) → Registry × List EvalEvent
  | [] => (r, [])
  | (name, callable) :: rest =>
    let (r, events) := r.register name callable
    let (r, more) := r.registerAll rest
    (r, events ++ more)

/-- The defined names in the order of their code points. -/
def names (r : Registry) : List String :=
  r.callables.sortedNames

end Registry

end CallExpr

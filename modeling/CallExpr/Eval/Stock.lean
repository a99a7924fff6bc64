import CallExpr.Eval.Builtin

/-!
# Stock functions

* `Stock`: functions to register by their description.
* `Stock.behaviour`: what each of them does.
* `Registration`: a stock function under a name, with a name to look for at its registration.
-/

namespace CallExpr

/-- Functions that a description is enough for. -/
inductive Stock where
  /-- Always this value. -/
  | const (value : Value)
  /-- The number of arguments. -/
  | count
  /-- The name of the call. -/
  | name
  /-- The first argument. -/
  | echo
  /-- Always a failure. -/
  | fail (message : String)
  /-- Notes its arguments and returns the last. -/
  | log
  /-- The kinds of the arguments. -/
  | types
  /-- The name of the call with the texts of the arguments. -/
  | join
  /-- Evaluates one argument only. -/
  | nth (index : Nat)
  /-- Notes the arguments without evaluating them. -/
  | quote
  /-- Evaluates the second argument if the first has no value. -/
  | attempt
  /-- Evaluates the arguments from right to left. -/
  | reverse
  | builtin (b : Builtin)

namespace Stock

/-- The tokens of the arguments, after a note of their entries. -/
def quoteScript (name : String) {n : Nat} (seen : List (Token × Option Entry)) : List (Fin n) → Script n
  | [] => .note (.quoted name (seen.reverse.map Prod.snd))
      (.done (.ok (.text (String.join (seen.reverse.map fun (t, _) => t.write)))))
  | i :: rest => .inspect i fun t e => quoteScript name ((t, e) :: seen) rest

/-- The texts of the arguments in this order, up to the first error. -/
def joinScript {n : Nat} (seen : String) : List (Fin n) → Script n
  | [] => .done (.ok (.text seen))
  | i :: rest => .evaluate i fun
    | .ok v => joinScript (seen ++ v.write) rest
    | .error e => .done (.error e)

/-- The first argument; if that has no value, the error is noted and the second is tried. -/
def attemptScript : (n : Nat) → Script n
  | 0 => .done (.ok (.text ""))
  | 1 => .evaluate 0 fun
    | .ok v => .done (.ok v)
    | .error e => .note (.caught e) (.done (.error e))
  | _ + 2 => .evaluate 0 fun
    | .ok v => .done (.ok v)
    | .error e => .note (.caught e) (.evaluate 1 .done)

/-- One argument, or a text that says that there is none. -/
def nthScript (index n : Nat) : Script n :=
  if h : index < n then .evaluate ⟨index, h⟩ .done else .done (.ok (.text "none"))

/-- A function of the name and the values that always has a value. -/
def ofValues (run : String → List Value → Value) : Behaviour :=
  ⟨.eager, fun name values _ => .done (.ok (run name values))⟩

/-- A function that evaluates its arguments itself. -/
def ofScript (run : String → (n : Nat) → Script n) : Behaviour :=
  ⟨.lazy, fun name _ => run name⟩

def behaviour : Stock → Behaviour
  | const value => ofValues fun _ _ => value
  | count => ofValues fun _ values => .integer (.ofNat values.length)
  | name => ofValues fun name _ => .text name
  | echo => ⟨.eager, fun _ values _ =>
    .done (values.head?.elim (.error (.failed (.custom "echo needs an argument"))) .ok)⟩
  | fail message => ⟨.eager, fun _ _ _ => .done (.error (.failed (.custom message)))⟩
  | log => ⟨.eager, fun name values _ =>
    .note (.called name values) (.done (.ok (values.getLast?.getD (.boolean false))))⟩
  | types => ofValues fun _ values => .text (" ".intercalate (values.map fun v => v.kind.name))
  | join => ofValues fun name values => .text (name ++ "[" ++ "|".intercalate (values.map Value.write) ++ "]")
  | nth index => ofScript fun _ n => nthScript index n
  | quote => ofScript fun name n => quoteScript name [] (List.finRange n)
  | attempt => ofScript fun _ n => attemptScript n
  | reverse => ofScript fun _ n => joinScript "" (List.finRange n).reverse
  | builtin b => b.behaviour

/-- Does the function report when it is registered? -/
def announces : Stock → Bool
  | join => false
  | _ => true

end Stock

/-- A stock function to be put under a name. -/
structure Registration where
  name : String
  stock : Stock
  /-- At the registration, note whether this name is defined. -/
  probe : Option String := none

namespace Registration

def callable (r : Registration) : Callable where
  behaviour := r.stock.behaviour
  announce defined :=
    match r.probe with
    | some name => if r.stock.announces then [.registered name (defined name)] else []
    | none => []

end Registration

/-- Carries out registrations one after the other. -/
def Registry.enroll (r : Registry) (registrations : List Registration) : Registry × List EvalEvent :=
  r.registerAll (registrations.map fun x => (x.name, x.callable))

end CallExpr

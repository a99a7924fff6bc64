import CallExpr.Evaluation
import CallExpr.Text.Quoted

/-!
# Sessions

* `Session`: functions, variables, a dialect, a store that is being filled and a forest.
* `Command`: what can be asked of a session, and `Reply`: what it answers.
* `Session.step`: carries out one command.
-/

namespace CallExpr

/-- The state that commands work on. -/
structure Session where
  registry : Registry := .empty
  bindings : Bindings := {}
  dialect : Dialect := {}
  /-- Commands add entries to this store. -/
  working : Store := .empty
  /-- Commands evaluate and write this forest. -/
  forest : Forest := {}

inductive Command where
  | addBuiltins
  | register (registration : Registration)
  | describe (name : String)
  | set (name : String) (value : Value)
  | refuseNumbers
  | clearBindings
  | resolve (name : String)
  /-- Changes the parts of the dialect that are given. -/
  | configure (maxDepth : Option Nat) (delimiter : Option Char)
  | read (source : String)
  | insert (entry : Entry)
  | lookUp (token : Token)
  | showStore
  | clearStore
  /-- Makes the working store the forest's, with these roots. -/
  | build (roots : List Token)
  /-- Makes the forest's store the working one. -/
  | unbuild
  | write
  | validate
  | evaluate
  | evaluateAll
  | evaluateAt (token : Token)
  /-- Reads and evaluates a source in the default dialect. -/
  | run (source : String)

inductive Reply where
  | done
  | registry (registry : Registry)
  | function (strategy : Option Strategy)
  | resolved (value : Option Value)
  | configured (dialect : Dialect)
  | read (result : Except ReadError Forest)
  | issued (token : Token)
  | entry (token : Token) (entry : Option Entry)
  | store (store : Store)
  | built (forest : Forest)
  | unbuilt (store : Store) (roots : List Token)
  | written (text : String)
  | validated (forest : Forest)
  | value (result : Except EvalError Value)
  | values (result : Except EvalError (List Value))
  | outcome (result : Except Error Value)

/-- The names of a registry in one line. -/
def Registry.describe (r : Registry) : String :=
  "FunctionRegistry([" ++ ", ".intercalate (r.names.map Text.quoted) ++ "])"

/-- A dialect with the given parts changed. -/
def Dialect.configure (d : Dialect) (maxDepth : Option Nat) (delimiter : Option Char) : Dialect :=
  ⟨maxDepth.getD d.maxDepth, delimiter.getD d.delimiter⟩

namespace Session

/-- The functions and variables of the session. -/
def environment (s : Session) : Environment :=
  ⟨s.registry, s.bindings.resolve⟩

/-- Carries out a command: the session after it, the answer, and what happened. -/
def step (s : Session) : Command → Session × Reply × List Event
  | .addBuiltins =>
    let (registry, events) := s.registry.addBuiltins
    ({ s with registry }, .registry registry, events.map .eval)
  | .register registration =>
    let (registry, events) := s.registry.enroll [registration]
    ({ s with registry }, .registry registry, events.map .eval)
  | .describe name => (s, .function ((s.registry.get? name).map fun c => c.behaviour.strategy), [])
  | .set name value => ({ s with bindings := s.bindings.set name value }, .done, [])
  | .refuseNumbers => ({ s with bindings := s.bindings.refuseNumbers }, .done, [])
  | .clearBindings => ({ s with bindings := {} }, .done, [])
  | .resolve name => (s, .resolved (s.bindings.resolve name), [])
  | .configure maxDepth delimiter =>
    let dialect := s.dialect.configure maxDepth delimiter
    ({ s with dialect }, .configured dialect, [])
  | .read source =>
    let answer := s.dialect.read source
    let forest := match answer.result with
      | .ok forest => forest
      | .error _ => s.forest
    ({ s with forest }, .read answer.result, answer.trace.map .read)
  | .insert entry =>
    let (working, token) := s.working.insert entry
    ({ s with working }, .issued token, [])
  | .lookUp token => (s, .entry token (s.working.get? token), [])
  | .showStore => (s, .store s.working, [])
  | .clearStore => ({ s with working := .empty }, .done, [])
  | .build roots =>
    let forest : Forest := ⟨s.working, roots⟩
    ({ s with forest }, .built forest, [])
  | .unbuild => ({ s with working := s.forest.store }, .unbuilt s.forest.store s.forest.roots, [])
  | .write => (s, .written s.forest.write, [])
  | .validate => (s, .validated s.forest, [])
  | .evaluate =>
    let answer := s.environment.evaluate s.forest
    (s, .value answer.result, answer.trace.map .eval)
  | .evaluateAll =>
    let answer := s.environment.evaluateAll s.forest
    (s, .values answer.result, answer.trace.map .eval)
  | .evaluateAt token =>
    let answer := s.environment.evaluateAt s.working token
    (s, .value answer.result, answer.trace.map .eval)
  | .run source =>
    let answer := Setup.evaluate ⟨s.environment, {}⟩ source
    (s, .outcome answer.result, answer.trace)

/-- Carries out commands one after the other. -/
def run (s : Session) : List Command → List (Reply × List Event)
  | [] => []
  | command :: commands =>
    let (s, answer) := s.step command
    answer :: s.run commands

end Session

end CallExpr

import CallExpr.Eval.Environment
import CallExpr.Eval.Stock
import CallExpr.Source.Reading

/-!
# Evaluating a source

* `Error`: a source that cannot be read, or an expression without a value.
* `Event`: what happens while a source is read and evaluated, with its line of text.
* `Setup.evaluate`, `Setup.evaluateAll`: the value of a source, and the values of its expressions.
-/

namespace CallExpr

/-- Why a source has no value. -/
inductive Error where
  | read (error : ReadError)
  | eval (error : EvalError)
  deriving DecidableEq, Repr

def Error.message : Error → String
  | read error => error.message
  | eval error => error.message

/-- An event of reading or of evaluating. -/
inductive Event where
  | read (stage : Stage)
  | eval (event : EvalEvent)

/-- The line that reports a stage. -/
def Stage.line : Stage → String
  | pass number calls => s!"TRACE pass {number}: {calls} call(s)"
  | call name arguments => s!"TRACE call {name} with {arguments} argument(s)"
  | finished bytes tokens text => s!"DEBUG tokenized {bytes} bytes into {tokens} tokens: {text}"

/-- The line that reports an event; notes have none. -/
def EvalEvent.line? : EvalEvent → Option String
  | registered name => some s!"TRACE register {name}"
  | dispatched _ name values => some s!"TRACE dispatch {name} with {values} value(s)"
  | noted _ => none

namespace Event

def line? : Event → Option String
  | read stage => some stage.line
  | eval event => event.line?

/-- The note that the event carries. -/
def note? : Event → Option Note
  | eval (.noted note) => some note
  | _ => none

end Event

/-- What a source needs beside its text. -/
structure Setup where
  environment : Environment
  dialect : Dialect := {}

namespace Setup

/-- Reads the source, then evaluates what was read. -/
def andThen {α : Type} (setup : Setup) (source : String)
    (evaluate : Environment → Forest → Traced EvalEvent EvalError α) : Traced Event Error α := do
  let forest ← ((setup.dialect.read source).mapTrace Event.read).mapError Error.read
  ((evaluate setup.environment forest).mapTrace Event.eval).mapError Error.eval

/-- The value of a source that holds one expression. -/
def evaluate (setup : Setup) (source : String) : Traced Event Error Value :=
  setup.andThen source Environment.evaluate

/-- The values of the expressions of a source. -/
def evaluateAll (setup : Setup) (source : String) : Traced Event Error (List Value) :=
  setup.andThen source Environment.evaluateAll

end Setup

end CallExpr

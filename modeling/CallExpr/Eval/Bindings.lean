import CallExpr.Named
import CallExpr.Value.Basic

/-!
# Values of variables

* `Variables`: the value of each variable that has one.
* `Bindings`: variables that were set one by one; other words may stand for numbers.
* `Variables.ofMark`: variables whose name carries its own value.
-/

namespace CallExpr

/-- The value of each variable that has one. -/
abbrev Variables := String → Option Value

/-- Values that were set by name. -/
structure Bindings where
  values : Named Value := .empty
  /-- Does a word that was not set stand for the number it denotes? -/
  numbers : Bool := true

namespace Bindings

/-- Sets a variable; an earlier value is forgotten. -/
def set (b : Bindings) (name : String) (value : Value) : Bindings :=
  { b with values := b.values.put name value }

def refuseNumbers (b : Bindings) : Bindings :=
  { b with numbers := false }

/-- Sets variables one after the other. -/
def setAll (b : Bindings) (values : List (String × Value)) : Bindings :=
  { b with values := b.values.putAll values }

/-- The value that was set, else the number that the word denotes. -/
def resolve (b : Bindings) : Variables := fun name =>
  match b.values.get? name with
  | some value => some value
  | none => if b.numbers then Value.ofWord? name else none

end Bindings

/-- Names that start with `mark` stand for the rest of the name as a text; others have no value. -/
def Variables.ofMark (mark : String) : Variables := fun name =>
  (mark.toList.isPrefixOf? name.toList).map fun rest => .text (.ofList rest)

end CallExpr

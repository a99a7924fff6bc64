import CallExpr.Source.Argument
import CallExpr.Store.Term

/-!
# The grammar of sources

The sources and the terms they stand for, said by recursion on the nesting and without passes. A token among the items
is an expression that is already known.

* `IsName`: the names of functions.
* `IsPhrase`, `IsWord`: the names of variables among arguments, and at the top level.
* `IsCall`, `IsArgument`, `IsArguments`: a call, one of its arguments, and all of them between the parentheses.
* `IsForest`: expressions with spaces between them.
-/

namespace CallExpr

namespace Grammar

/-- A letter or an underscore, then letters, digits and underscores. -/
def IsName (cs : List Char) : Prop :=
  ∃ c rest, cs = c :: rest ∧ isNameChar c = true ∧ c.isDigit = false ∧ ∀ x ∈ rest, isNameChar x = true

/-- No parenthesis and no delimiter. -/
def IsPlain (delimiter : Char) (cs : List Char) : Prop :=
  ∀ c ∈ cs, Argument.isStructural delimiter c = false

/-- Plain characters with no space at either end; there may be none at all. -/
def IsPhrase (delimiter : Char) (cs : List Char) : Prop :=
  IsPlain delimiter cs ∧ cs.head? ≠ some ' ' ∧ cs.getLast? ≠ some ' '

/-- One or more plain characters without a space. -/
def IsWord (delimiter : Char) (cs : List Char) : Prop :=
  IsPlain delimiter cs ∧ cs ≠ [] ∧ ' ' ∉ cs

/-- Some number of spaces. -/
def spaces {α : Type} (n : Nat) : List (Item α) :=
  List.replicate n (.char ' ')

mutual

/-- A name, and arguments between parentheses. -/
inductive IsCall (delimiter : Char) : List (Item Term) → Term → Prop
  | mk {name : List Char} {body : List (Item Term)} {arguments : List Term} :
    IsName name → IsBody delimiter body arguments →
    IsCall delimiter (name.map .char ++ .char '(' :: body ++ [.char ')']) (.call (.ofList name) arguments)

/-- What may stand between the parentheses of a call. -/
inductive IsBody (delimiter : Char) : List (Item Term) → List Term → Prop
  | empty (n : Nat) : IsBody delimiter (spaces n) []
  | arguments {body : List (Item Term)} {arguments : List Term} :
    IsArguments delimiter body arguments → (∃ x ∈ body, x.isSpace = false) → IsBody delimiter body arguments

/-- One or more arguments with delimiters between them. -/
inductive IsArguments (delimiter : Char) : List (Item Term) → List Term → Prop
  | one {items : List (Item Term)} {t : Term} : IsArgument delimiter items t → IsArguments delimiter items [t]
  | cons {items rest : List (Item Term)} {t : Term} {ts : List Term} :
    IsArgument delimiter items t → IsArguments delimiter rest ts →
    IsArguments delimiter (items ++ .char delimiter :: rest) (t :: ts)

/-- An expression or a phrase, with spaces around it. -/
inductive IsArgument (delimiter : Char) : List (Item Term) → Term → Prop
  | known (m n : Nat) (t : Term) : IsArgument delimiter (spaces m ++ .token t :: spaces n) t
  | call (m n : Nat) {items : List (Item Term)} {t : Term} :
    IsCall delimiter items t → IsArgument delimiter (spaces m ++ items ++ spaces n) t
  | phrase (m n : Nat) {cs : List Char} :
    IsPhrase delimiter cs →
    IsArgument delimiter (spaces m ++ cs.map .char ++ spaces n) (.variable (.ofList cs))

end

/-- An expression at the top level. -/
inductive IsTop (delimiter : Char) : List (Item Term) → Term → Prop
  | known (t : Term) : IsTop delimiter [.token t] t
  | call {items : List (Item Term)} {t : Term} : IsCall delimiter items t → IsTop delimiter items t
  | word {cs : List Char} : IsWord delimiter cs → IsTop delimiter (cs.map .char) (.variable (.ofList cs))

/-- Expressions with one or more spaces after each. -/
inductive IsSequence (delimiter : Char) : List (Item Term) → List Term → Prop
  | nil : IsSequence delimiter [] []
  | last {items : List (Item Term)} {t : Term} : IsTop delimiter items t → IsSequence delimiter items [t]
  | cons (n : Nat) {items rest : List (Item Term)} {t : Term} {ts : List Term} :
    IsTop delimiter items t → IsSequence delimiter rest ts →
    IsSequence delimiter (items ++ spaces (n + 1) ++ rest) (t :: ts)

/-- Expressions with spaces between them, and perhaps around them. -/
def IsForest (delimiter : Char) (items : List (Item Term)) (terms : List Term) : Prop :=
  ∃ n rest, items = spaces n ++ rest ∧ IsSequence delimiter rest terms

end Grammar

end CallExpr

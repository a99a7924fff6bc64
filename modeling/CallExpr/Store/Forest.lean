import CallExpr.Store.Basic

/-!
# Forests

* `Forest`: a store with the tokens of its top-level expressions.
* `Forest.dangling?`: the first token that has no entry.
* `Forest.write`: the source text of a forest, with a delimiter and a space between arguments.
-/

namespace CallExpr

namespace Store

/-- The tokens that the calls of the store refer to, in the order of the store. -/
def references (s : Store) : List Token :=
  s.toList.flatMap Entry.arguments

/-- The text of a token, in which at most `depth` entries are nested; a token below that, or without an entry, is
written by its number. A literal is put between quotes as it is. -/
def writeWithin (s : Store) (delimiter : Char) : (depth : Nat) → Token → String
  | 0, t => t.write
  | depth + 1, t =>
    match s.get? t with
    | none => t.write
    | some (.literal content) => "'" ++ content ++ "'"
    | some (.variable name) => name
    | some (.call name arguments) =>
      name ++ "(" ++ (String.ofList [delimiter, ' ']).intercalate (arguments.map (s.writeWithin delimiter depth)) ++ ")"

/-- The text of a token. In a store without cycles no chain of references is longer than the store. -/
def write (s : Store) (delimiter : Char) (t : Token) : String :=
  s.writeWithin delimiter (s.size + 1) t

end Store

/-- A store with its top-level expressions. -/
structure Forest where
  store : Store := .empty
  roots : List Token := []
  deriving DecidableEq, Repr

namespace Forest

/-- The first token without an entry: of the roots, then of the arguments in the order of the store. -/
def dangling? (f : Forest) : Option Token :=
  (f.roots ++ f.store.references).find? fun t => !f.store.contains t

/-- The texts of the roots with a space between them. -/
def write (f : Forest) (delimiter : Char := ',') : String :=
  " ".intercalate (f.roots.map (f.store.write delimiter))

end Forest

end CallExpr

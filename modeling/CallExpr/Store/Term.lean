import CallExpr.Store.Forest

/-!
# Expressions as trees

* `Term`: an expression without tokens; a token that has no entry stays as a leaf.
* `Store.unfoldWithin`: the term of a token, if no chain of references is longer than a limit.
* `Forest.Unfolds`: the terms of the roots of a forest.
* `Term.height`: how deep calls are nested.
-/

namespace CallExpr

/-- An expression without tokens. -/
inductive Term where
  | literal (content : String)
  | variable (name : String)
  | call (name : String) (arguments : List Term)
  /-- A token that has no entry. -/
  | missing (token : Token)

namespace Store

/-- The term of a token, if at most `depth` entries are nested. -/
def unfoldWithin (s : Store) : (depth : Nat) → Token → Option Term
  | 0, _ => none
  | depth + 1, t =>
    match s.get? t with
    | none => some (.missing t)
    | some (.literal content) => some (.literal content)
    | some (.variable name) => some (.variable name)
    | some (.call name arguments) => (arguments.mapM (s.unfoldWithin depth)).map (.call name)

/-- Following the references from `t` ends, and gives the term. -/
def Unfolds (s : Store) (t : Token) (term : Term) : Prop :=
  ∃ depth, s.unfoldWithin depth t = some term

end Store

/-- The roots unfold to these terms. -/
def Forest.Unfolds (f : Forest) (terms : List Term) : Prop :=
  ∃ depth, f.roots.mapM (f.store.unfoldWithin depth) = some terms

namespace Term

mutual

/-- How deep calls are nested: zero without a call. -/
def height : Term → Nat
  | call _ arguments => heights arguments + 1
  | _ => 0

/-- The greatest height of the terms, zero if there are none. -/
def heights : List Term → Nat
  | [] => 0
  | t :: ts => max t.height (heights ts)

end

end Term

end CallExpr

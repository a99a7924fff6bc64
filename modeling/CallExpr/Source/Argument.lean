import CallExpr.Source.Item

/-!
# Arguments and words

* `Argument`: a finished expression, or a word that becomes a variable.
* `Argument.ofPiece`: what the items between two separators stand for.
* `Argument.ofBody`: the arguments of a call.
* `Argument.ofTopLevel`: the expressions of a whole source.
-/

namespace CallExpr

/-- A finished expression, or a word. -/
inductive Argument (α : Type) where
  | token (a : α)
  | word (s : String)
  deriving DecidableEq, Repr

namespace Argument

variable {α : Type}

/-- The characters that no word holds. -/
def isStructural (delimiter c : Char) : Bool :=
  c == '(' || c == ')' || c == delimiter

/-- The character of an item that may stand in a word. -/
def wordChar? (delimiter : Char) : Item α → Option Char
  | .char c => if isStructural delimiter c then none else some c
  | .token _ => none

/-- A lone token stands for itself and characters for a word, which may be empty. Anything else is an error, and the
error is the piece. -/
def ofPiece (delimiter : Char) (piece : List (Item α)) : Except (List (Item α)) (Argument α) :=
  match piece with
  | [.token a] => .ok (token a)
  | _ =>
    match piece.mapM (wordChar? delimiter) with
    | some cs => .ok (word (.ofList cs))
    | none => .error piece

/-- Reads the pieces up to the first error. -/
def ofPieces (delimiter : Char) (pieces : List (List (Item α))) : Except (List (Item α)) (List (Argument α)) :=
  pieces.mapM (ofPiece delimiter)

/-- The arguments between the parentheses of a call: none if there are only spaces, else one more than delimiters. The
spaces around an argument do not count. -/
def ofBody (delimiter : Char) (body : List (Item α)) : Except (List (Item α)) (List (Argument α)) :=
  if body.all Item.isSpace then .ok []
  else ofPieces delimiter ((body.splitOnP (Item.is delimiter)).map trimSpaces)

/-- The expressions of a source whose calls are finished: whatever spaces separate. -/
def ofTopLevel (delimiter : Char) (items : List (Item α)) : Except (List (Item α)) (List (Argument α)) :=
  ofPieces delimiter ((items.splitOnP Item.isSpace).filter fun piece => !piece.isEmpty)

end Argument

end CallExpr

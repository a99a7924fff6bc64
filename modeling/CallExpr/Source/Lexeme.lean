import CallExpr.Text.Blank

/-!
# Lexemes

* `Lexeme`: a stretch of text, or the content of a quoted literal.
* `Lexeme.scan`: the lexemes of a source, or the place of the quote that is never closed.
* `Lexeme.write`: a lexeme as it stands in the source.

Each quote ends a stretch, and the stretches are by turns text and literal. Nothing escapes a quote.
-/

namespace CallExpr

def quoteMark : Char := '\x27'

/-- A part of the source: text without quotes, or the content of a literal. -/
inductive Lexeme where
  | text (s : String)
  | literal (content : String)
  deriving DecidableEq, Repr

namespace Lexeme

/-- A stretch of text is a lexeme if it is not empty. -/
def ofText (cs : List Char) : List Lexeme :=
  if cs.isEmpty then [] else [text (.ofList cs)]

/-- How many bytes the characters take. -/
def byteSize (cs : List Char) : Nat :=
  cs.foldr (fun c size => c.utf8Size + size) 0

/-- The lexemes of the stretches between the quotes; the first stretch is text and starts at byte `offset`. The error is
the byte at which an unclosed literal starts. -/
def ofStretches (offset : Nat) : List (List Char) → Except Nat (List Lexeme)
  | [] => .ok []
  | [last] => .ok (ofText last)
  | [before, _] => .error (offset + byteSize before)
  | before :: content :: rest => do
    let next := offset + byteSize before + quoteMark.utf8Size + byteSize content + quoteMark.utf8Size
    return ofText before ++ literal (.ofList content) :: (← ofStretches next rest)

/-- The lexemes of a source, or the byte at which an unclosed literal starts. -/
def scan (source : String) : Except Nat (List Lexeme) :=
  ofStretches 0 (source.toList.splitOn quoteMark)

/-- The lexeme as it stands in the source. -/
def write : Lexeme → List Char
  | text s => s.toList
  | literal content => quoteMark :: content.toList ++ [quoteMark]

/-- The source that the lexemes make up. -/
def writeAll (lexemes : List Lexeme) : String :=
  .ofList (lexemes.flatMap write)

end Lexeme

end CallExpr

import CallExpr.Source.Lexeme

/-!
# Items

* `Item`: one element of the buffer that is read: a character, or a token that stands for a finished expression.
* `Item.ofLexemes`: the source with its blanks collapsed and each literal as one item.
* `isNameChar`: the characters of function names.
-/

namespace CallExpr

/-- A character, or a finished expression. -/
inductive Item (α : Type) where
  | char (c : Char)
  | token (a : α)
  deriving DecidableEq, Repr

namespace Item

variable {α β : Type}

def isSpace : Item α → Bool
  | char c => c == ' '
  | token _ => false

/-- Is it this character? -/
def is (c : Char) : Item α → Bool
  | char c' => c' == c
  | token _ => false

/-- Replaces what stands for the expressions. -/
def map (f : α → β) : Item α → Item β
  | char c => char c
  | token a => token (f a)

/-- The characters of an item, given those of the expressions. -/
def write (f : α → String) : Item α → List Char
  | char c => [c]
  | token a => (f a).toList

/-- Text is a run of characters, its blanks collapsed; a literal is one item, whatever it contains. -/
def ofLexeme : Lexeme → List (Item String)
  | .text s => (Text.collapse s).toList.map char
  | .literal content => [token content]

def ofLexemes (lexemes : List Lexeme) : List (Item String) :=
  lexemes.flatMap ofLexeme

end Item

/-- Letters, digits from 0 to 9 and the underscore. -/
def isNameChar (c : Char) : Bool :=
  c.isAlphanum || c == '_'

/-- Drops the spaces at both ends. -/
def trimSpaces {α : Type} (items : List (Item α)) : List (Item α) :=
  ((items.dropWhile Item.isSpace).reverse.dropWhile Item.isSpace).reverse

end CallExpr

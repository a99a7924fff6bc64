import CallExpr.Source.Argument
import CallExpr.Source.Chunk
import CallExpr.Store.Forest
import CallExpr.Traced

/-!
# Reading a source

* `Dialect`: the separator of arguments and the limit of nesting.
* `Dialect.read`: the forest of a source.
* `ReadError`: why a source is refused.
* `Stage`: what happens on the way.

A source is read from the inside out. One pass replaces every innermost call by a token; the passes end when no call is
left, and then the spaces separate the expressions. The number of passes is limited, the last one included.
-/

namespace CallExpr

/-- Why a source is refused. -/
inductive ReadError where
  /-- The calls are nested `limit` levels deep, or deeper. -/
  | tooDeep (limit : Nat)
  /-- The literal that starts at this byte is not closed. -/
  | unclosed (offset : Nat)
  /-- These items stand for no expression; tokens are written by number. -/
  | malformed (fragment : String)
  /-- This character cannot separate arguments. -/
  | unusable (delimiter : Char)
  deriving DecidableEq, Repr

def ReadError.message : ReadError → String
  | tooDeep limit => s!"maximum function nesting level of {limit} exceeded"
  | unclosed offset => s!"unterminated string literal starting at byte {offset}"
  | malformed fragment => s!"malformed expression near `{fragment}`"
  | unusable delimiter => s!"`{delimiter}` cannot be used as an argument delimiter"

/-- What happens while a source is read. -/
inductive Stage where
  /-- A pass, counted from one, found calls. -/
  | pass (number calls : Nat)
  /-- The arguments of a call were read. -/
  | call (name : String) (arguments : Nat)
  /-- A source of so many bytes gave so many tokens. -/
  | finished (bytes tokens : Nat) (text : String)
  deriving DecidableEq, Repr

/-- How sources are written. -/
structure Dialect where
  /-- As many levels of calls are one too many. -/
  maxDepth : Nat := 20
  /-- Separates the arguments of a call. -/
  delimiter : Char := ','
  deriving DecidableEq, Repr

namespace Store

/-- Stores the literals among the items, in their order. -/
def insertLiterals (s : Store) : List (Item String) → Store × List (Item Token)
  | [] => (s, [])
  | .char c :: items =>
    let (s, rest) := s.insertLiterals items
    (s, .char c :: rest)
  | .token content :: items =>
    let (s, t) := s.insert (.literal content)
    let (s, rest) := s.insertLiterals items
    (s, .token t :: rest)

/-- Stores the words among the arguments as variables, in their order. -/
def insertWords (s : Store) : List (Argument Token) → Store × List Token
  | [] => (s, [])
  | .token t :: arguments =>
    let (s, rest) := s.insertWords arguments
    (s, t :: rest)
  | .word w :: arguments =>
    let (s, t) := s.insert (.variable w)
    let (s, rest) := s.insertWords arguments
    (s, t :: rest)

end Store

namespace Dialect

/-- Quotes, parentheses and blank characters have a meaning of their own. -/
def isUsable (delimiter : Char) : Bool :=
  !(Text.isBlank delimiter || delimiter == '(' || delimiter == ')' || delimiter == quoteMark)

/-- The error for a piece that stands for no expression. -/
def malformed (piece : List (Item Token)) : ReadError :=
  .malformed (.ofList (piece.flatMap (Item.write Token.write)))

/-- Stores the calls among the chunks, from left to right; each becomes one token. -/
def resolve (d : Dialect) (s : Store) : List (Chunk Token) → Traced Stage ReadError (Store × List (Item Token))
  | [] => pure (s, [])
  | .item x :: chunks => do
    let (s, rest) ← d.resolve s chunks
    return (s, x :: rest)
  | .call name body :: chunks => do
    let arguments ← .ofExcept ((Argument.ofBody d.delimiter body).mapError malformed)
    let (s, tokens) := s.insertWords arguments
    let name := String.ofList name
    .emit (.call name tokens.length)
    let (s, t) := s.insert (.call name tokens)
    let (s, rest) ← d.resolve s chunks
    return (s, .token t :: rest)

/-- Resolves innermost calls until there are none. The last pass finds no call and needs one of the `left` passes too;
`done` passes came before. -/
def passes (d : Dialect) : (left done : Nat) → Store → List (Item Token) →
    Traced Stage ReadError (Store × List (Item Token))
  | 0, _, _, _ => .fail (.tooDeep d.maxDepth)
  | left + 1, done, s, items =>
    let chunks := Chunk.scan items
    match chunks.countP Chunk.isCall with
    | 0 => pure (s, items)
    | calls => do
      .emit (.pass (done + 1) calls)
      let (s, items) ← d.resolve s chunks
      d.passes left (done + 1) s items

/-- The forest of a source. -/
def read (d : Dialect) (source : String) : Traced Stage ReadError Forest := do
  if isUsable d.delimiter then
    let lexemes ← .ofExcept ((Lexeme.scan source).mapError .unclosed)
    let (s, items) := Store.empty.insertLiterals (Item.ofLexemes lexemes)
    let (s, items) ← d.passes d.maxDepth 0 s items
    let arguments ← .ofExcept ((Argument.ofTopLevel d.delimiter items).mapError malformed)
    let (s, roots) := s.insertWords arguments
    let forest : Forest := ⟨s, roots⟩
    .emit (.finished source.utf8ByteSize s.size forest.write)
    return forest
  else .fail (.unusable d.delimiter)

end Dialect

end CallExpr

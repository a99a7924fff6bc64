import CallExpr.Source.Chunk
import CallExpr.Source.Grammar

/-!
# Where calls stand

Innermost calls once more, by their positions among the items.

* `Span`: the positions of a call.
* `Span.IsInnermost`: an innermost call stands there, with its whole name.
* `Span.search`: the spans that one walk from left to right finds, with a single open parenthesis in mind.
* `Span.cut`: the items, cut into chunks at spans.
* `Chunk.spans`: the spans of the calls among chunks.

The items from one position up to another are those before the second that are not before the first.
-/

namespace CallExpr

/-- The character, if the item is one. -/
def Item.char? {α : Type} : Item α → Option Char
  | char c => some c
  | token _ => none

/-- A call stands among the items: its name starts at `start`, and its parentheses are at `opening` and `closing`. -/
structure Span where
  start : Nat
  opening : Nat
  closing : Nat
  deriving DecidableEq, Repr

namespace Span

variable {α : Type}

/-! ## Innermost calls -/

/-- The items from one position up to another spell the name of a function. -/
def IsNameAt (items : List (Item α)) (start stop : Nat) : Prop :=
  ∃ name, Grammar.IsName name ∧ items.extract start stop = name.map .char

/-- No longer name ends at the same position. -/
def IsLongestName (items : List (Item α)) (start stop : Nat) : Prop :=
  IsNameAt items start stop ∧ ∀ i, IsNameAt items i stop → start ≤ i

/-- The last parenthesis before a position is a `(`, and this is where it stands. -/
structure IsOpen (items : List (Item α)) (position opening : Nat) : Prop where
  lt : opening < position
  opened : items[opening]? = some (.char '(')
  between : ∀ i, opening < i → i < position → items[i]? ≠ some (.char '(') ∧ items[i]? ≠ some (.char ')')

/-- A name as long as it can be, and right after it a group without inner parentheses. -/
structure IsInnermost (items : List (Item α)) (p : Span) : Prop where
  isOpen : IsOpen items p.closing p.opening
  closed : items[p.closing]? = some (.char ')')
  name : IsLongestName items p.start p.opening

/-! ## The search -/

/-- The character at a position. -/
def charAt? (items : List (Item α)) (i : Nat) : Option Char :=
  items[i]?.bind Item.char?

/-- Goes from a position to the left, over name characters. -/
def skipLeft (items : List (Item α)) : (position : Nat) → Nat
  | 0 => 0
  | i + 1 => if (charAt? items i).any isNameChar then skipLeft items i else i + 1

/-- Goes from a position to the right, over digits and `count` steps at most. -/
def skipDigits (items : List (Item α)) : (count position : Nat) → Nat
  | 0, i => i
  | count + 1, i => if (charAt? items i).any Char.isDigit then skipDigits items count (i + 1) else i

/-- Where the name starts that ends right before a position. -/
def nameStart? (items : List (Item α)) (stop : Nat) : Option Nat :=
  let first := skipLeft items stop
  let start := skipDigits items (stop - first) first
  if start < stop then some start else none

/-- The state of a search: the last `(`, if no `)` came after it, and the spans so far. -/
structure Search where
  opening : Option Nat := none
  found : List Span := []

/-- The call that a `)` at a position ends. -/
def Search.close (items : List (Item α)) (s : Search) (closing : Nat) : Option Span := do
  let opening ← s.opening
  let start ← nameStart? items opening
  return ⟨start, opening, closing⟩

/-- Looks at the item at a position. -/
def Search.step (items : List (Item α)) (s : Search) (i : Nat) (x : Item α) : Search :=
  if x.is '(' then ⟨some i, s.found⟩
  else if x.is ')' then ⟨none, s.found ++ (s.close items i).toList⟩
  else s

/-- Looks at the items that start at a position. -/
def Search.run (items : List (Item α)) : Search → (position : Nat) → List (Item α) → Search
  | s, _, [] => s
  | s, i, x :: rest => run items (s.step items i x) (i + 1) rest

/-- The spans that a walk over all items finds. -/
def search (items : List (Item α)) : List Span :=
  (Search.run items {} 0 items).found

/-! ## The cut -/

/-- The items from one position up to another, if the positions are in order and in range. -/
def slice? (items : List (Item α)) (start stop : Nat) : Option (List (Item α)) :=
  if start ≤ stop ∧ stop ≤ items.length then some (items.extract start stop) else none

/-- Cuts the items that start at a position: what is before a span stays, and the span becomes a call. -/
def cut (items : List (Item α)) : (position : Nat) → List Span → Option (List (Chunk α))
  | position, [] => do
    let rest ← slice? items position items.length
    return rest.map .item
  | position, p :: spans => do
    let before ← slice? items position p.start
    let name ← slice? items p.start p.opening
    let body ← slice? items (p.opening + 1) p.closing
    let chunks ← cut items (p.closing + 1) spans
    return before.map .item ++ .call (name.filterMap Item.char?) body :: chunks

end Span

/-- The spans of the calls among chunks whose items start at a position. -/
def Chunk.spans {α : Type} : (position : Nat) → List (Chunk α) → List Span
  | _, [] => []
  | i, .item _ :: chunks => spans (i + 1) chunks
  | i, .call name body :: chunks =>
    let opening := i + name.length
    let closing := opening + 1 + body.length
    ⟨i, opening, closing⟩ :: spans (closing + 1) chunks

end CallExpr

import CallExpr.Source.Item

/-!
# Innermost calls

* `Chunk`: a single item, or an innermost call: a name, and between parentheses items without parentheses.
* `Chunk.scan`: the items, cut into chunks.
* `Chunk.spelling`: the items of a chunk.

The scan goes from right to left. A `)` opens a group, the next parenthesis to the left decides whether it is innermost,
and the characters before the group are its name as long as they can be. Digits at the start do not belong to a name. A
group without a name stays as it is.
-/

namespace CallExpr

/-- A single item, or a name followed by a group without inner parentheses. -/
inductive Chunk (α : Type) where
  | item (x : Item α)
  | call (name : List Char) (body : List (Item α))
  deriving DecidableEq, Repr

namespace Chunk

variable {α : Type}

def isCall : Chunk α → Bool
  | item _ => false
  | call _ _ => true

/-- A group as it is spelled. -/
def group (body : List (Item α)) : List (Item α) :=
  .char '(' :: body ++ [.char ')']

/-- The items that the chunk covers. -/
def spelling : Chunk α → List (Item α)
  | item x => [x]
  | call name body => name.map .char ++ group body

/-- What the scan has read and not yet cut. -/
inductive Pending (α : Type) where
  | nothing
  /-- The items up to a `)`, none of them a parenthesis. -/
  | body (items : List (Item α))
  /-- A group, and the name characters right before it. -/
  | named (name : List Char) (items : List (Item α))
  deriving DecidableEq, Repr

/-- The chunks of what is pending when no more items belong to it. -/
def Pending.chunks : Pending α → List (Chunk α)
  | nothing => []
  | body items => (items ++ [Item.char ')']).map item
  | named name items =>
    if name.all Char.isDigit then (name.map Item.char ++ group items).map item
    else
      ((name.takeWhile Char.isDigit).map Item.char).map item ++ [call (name.dropWhile Char.isDigit) items]

/-- One item further to the left: what is pending then, and the chunks that are finished. -/
def Pending.push (x : Item α) : Pending α → Pending α × List (Chunk α)
  | nothing => if x.is ')' then (body [], []) else (nothing, [item x])
  | body items =>
    if x.is '(' then (named [] items, [])
    else if x.is ')' then (body [], (body items).chunks)
    else (body (x :: items), [])
  | named name items =>
    match x with
    | .char c =>
      if isNameChar c then (named (c :: name) items, [])
      else if c == ')' then (body [], (named name items).chunks)
      else (nothing, item x :: (named name items).chunks)
    | .token _ => (nothing, item x :: (named name items).chunks)

/-- What is pending at the left end of the items, and the chunks to the right of that. -/
def scanPending (items : List (Item α)) : Pending α × List (Chunk α) :=
  items.foldr (fun x (pending, done) => let (pending, more) := pending.push x; (pending, more ++ done)) (.nothing, [])

/-- Cuts the items into chunks. -/
def scan (items : List (Item α)) : List (Chunk α) :=
  let (pending, done) := scanPending items
  pending.chunks ++ done

/-! ## Nothing is lost -/

/-- The items that are pending. -/
def Pending.spelling : Pending α → List (Item α)
  | nothing => []
  | body items => items ++ [.char ')']
  | named name items => name.map .char ++ group items

theorem flatMap_spelling_map_item (items : List (Item α)) : (items.map item).flatMap spelling = items := by
  induction items with
  | nil => rfl
  | cons x items ih => simpa [spelling] using ih

theorem Pending.flatMap_spelling_chunks (p : Pending α) : p.chunks.flatMap Chunk.spelling = p.spelling := by
  cases p with
  | nothing => rfl
  | body items => exact flatMap_spelling_map_item _
  | named name items =>
    rw [Pending.chunks]
    split
    · exact flatMap_spelling_map_item _
    · rw [List.flatMap_append, flatMap_spelling_map_item, List.flatMap_singleton, Chunk.spelling, ← List.append_assoc,
        ← List.map_append, List.takeWhile_append_dropWhile, Pending.spelling]

theorem Pending.spelling_push (x : Item α) (p : Pending α) :
    (p.push x).1.spelling ++ (p.push x).2.flatMap Chunk.spelling = x :: p.spelling := by
  have hx : ∀ c, x.is c = true → x = .char c := by
    intro c h
    cases x <;> simp_all [Item.is]
  cases p with
  | nothing =>
    rw [Pending.push]
    split
    · next h => rw [hx _ h]; rfl
    · rfl
  | body items =>
    rw [Pending.push]
    split
    · next h => rw [hx _ h]; simp [Pending.spelling, group]
    · split
      · next h => rw [Pending.flatMap_spelling_chunks, hx _ h]; rfl
      · simp [Pending.spelling]
  | named name items =>
    cases x with
    | token a => simp [Pending.push, Pending.flatMap_spelling_chunks, Pending.spelling, Chunk.spelling]
    | char c =>
      rw [Pending.push]
      split
      · simp [Pending.spelling]
      · split
        · next h =>
          rw [Pending.flatMap_spelling_chunks, beq_iff_eq.mp h]; rfl
        · rw [List.flatMap_cons, Pending.flatMap_spelling_chunks]; rfl

/-- The chunks spell the items. -/
theorem flatMap_spelling_scan (items : List (Item α)) : (scan items).flatMap spelling = items := by
  have h : ∀ items : List (Item α),
      (scanPending items).1.spelling ++ (scanPending items).2.flatMap spelling = items := by
    intro items
    induction items with
    | nil => rfl
    | cons x items ih =>
      rw [show scanPending (x :: items) = (((scanPending items).1.push x).1,
        ((scanPending items).1.push x).2 ++ (scanPending items).2) from rfl]
      rw [List.flatMap_append, ← List.append_assoc, Pending.spelling_push, List.cons_append, ih]
  rw [scan, List.flatMap_append, Pending.flatMap_spelling_chunks, h]

end Chunk

end CallExpr

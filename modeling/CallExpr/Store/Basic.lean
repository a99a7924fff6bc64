/-!
# Tokens and their store

* `Token`: a number that stands for an entry.
* `Entry`: a literal, a variable or a call of other tokens.
* `Store`: the entries by token, in the order in which the tokens were issued.
-/

namespace CallExpr

/-- Stands for an entry of a store. -/
structure Token where
  index : Nat
  deriving DecidableEq, Repr

def Token.write (t : Token) : String :=
  s!"#{t.index}"

/-- One node of an expression; the arguments of a call are tokens. -/
inductive Entry where
  | literal (content : String)
  | variable (name : String)
  | call (name : String) (arguments : List Token)
  deriving DecidableEq, Repr

/-- The tokens that an entry refers to. -/
def Entry.arguments : Entry → List Token
  | call _ arguments => arguments
  | _ => []

/-- The entries issued so far; the token of an entry is its position. Entries are only added. -/
structure Store where
  entries : Array Entry := #[]
  deriving DecidableEq, Repr

namespace Store

def empty : Store := {}

def size (s : Store) : Nat :=
  s.entries.size

def toList (s : Store) : List Entry :=
  s.entries.toList

/-- The entry of a token. -/
def get? (s : Store) (t : Token) : Option Entry :=
  s.entries[t.index]?

def contains (s : Store) (t : Token) : Bool :=
  t.index < s.size

/-- Adds an entry and issues its token. -/
def insert (s : Store) (e : Entry) : Store × Token :=
  (⟨s.entries.push e⟩, ⟨s.size⟩)

@[simp]
theorem size_insert (s : Store) (e : Entry) : (s.insert e).1.size = s.size + 1 := by
  simp [insert, size]

@[simp]
theorem toList_insert (s : Store) (e : Entry) : (s.insert e).1.toList = s.toList ++ [e] := by
  simp [insert, toList]

@[simp]
theorem get?_insert_self (s : Store) (e : Entry) : (s.insert e).1.get? (s.insert e).2 = some e := by
  simp [insert, get?, size]

theorem get?_insert_of_lt {s : Store} {t : Token} (h : t.index < s.size) (e : Entry) :
    (s.insert e).1.get? t = s.get? t := by
  simp only [insert, get?, size] at *
  rw [Array.getElem?_push_lt h, Array.getElem?_eq_getElem h]

theorem contains_iff {s : Store} {t : Token} : s.contains t = true ↔ t.index < s.size :=
  decide_eq_true_iff

theorem isSome_get?_iff {s : Store} {t : Token} : (s.get? t).isSome = true ↔ t.index < s.size := by
  simp [get?, size]

end Store

end CallExpr

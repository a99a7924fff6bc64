/-!
# Tables by name

* `Named α`: for each name at most one `α`.
* `Named.get?`, `Named.put`: look-up, and entry in place of what was there.
* `Named.sortedNames`: the names in the order of their code points.
-/

namespace CallExpr

/-- For each name at most one `α`. -/
structure Named (α : Type) where
  pairs : List (String × α) := []
  deriving Inhabited

namespace Named

variable {α : Type}

def empty : Named α := {}

def get? (t : Named α) (name : String) : Option α :=
  t.pairs.lookup name

def contains (t : Named α) (name : String) : Bool :=
  (t.get? name).isSome

/-- Puts an entry under a name, in place of the one that was there. -/
def put (t : Named α) (name : String) (a : α) : Named α :=
  ⟨(name, a) :: t.pairs.filter fun p => p.1 != name⟩

/-- Puts entries under names, one after the other. -/
def putAll (t : Named α) (pairs : List (String × α)) : Named α :=
  pairs.foldl (fun t (name, a) => t.put name a) t

/-- The names in the order of their code points. -/
def sortedNames (t : Named α) : List String :=
  (t.pairs.map Prod.fst).mergeSort (· ≤ ·)

@[simp]
theorem get?_put_self (t : Named α) (name : String) (a : α) : (t.put name a).get? name = some a := by
  simp [put, get?]

theorem lookup_filter_of_ne {name other : String} (h : other ≠ name) (l : List (String × α)) :
    (l.filter fun p => p.1 != name).lookup other = l.lookup other := by
  induction l with
  | nil => rfl
  | cons p l ih => grind

theorem get?_put_of_ne {name other : String} (h : other ≠ name) (t : Named α) (a : α) :
    (t.put name a).get? other = t.get? other := by
  have h' : (other == name) = false := by simpa using h
  simp [put, get?, List.lookup_cons, h', lookup_filter_of_ne h]

end Named

end CallExpr

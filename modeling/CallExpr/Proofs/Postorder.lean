import CallExpr.Proofs.Walk

/-!
# The order of the tokens

* `Store.postorder`, `Forest.postorder`: the tokens of an expression and of a forest, each after its arguments
  (`Store.Ordered.postorder_eq`). The calls among them are those of the walk (`Forest.filter_postorder`).
* `Forest.numbering`: the literals, then the calls by their heights and each of them after its own variables, at last
  the variables at the top level.
* `Store.newTokens`: the tokens that are issued from one store to another. Those of two steps one after the other are
  put together (`Store.Grows.newTokens_append`).
-/

namespace CallExpr

namespace Store

variable (s : Store)

/-- The tokens below a token, in which at most `depth` entries are nested, each after its arguments. -/
def postorderWithin : (depth : Nat) → Token → List Token
  | 0, _ => []
  | depth + 1, t => (s.argumentsOf t).flatMap (postorderWithin depth) ++ [t]

/-- The tokens below a token, the token itself at the end. In a store without cycles no chain of references is longer
than the store. -/
def postorder (t : Token) : List Token :=
  s.postorderWithin (s.size + 1) t

/-- Does the token stand for a literal? -/
def isLiteral (t : Token) : Bool :=
  match s.get? t with
  | some (.literal _) => true
  | _ => false

/-- Does the token stand for a variable? -/
def isVariable (t : Token) : Bool :=
  match s.get? t with
  | some (.variable _) => true
  | _ => false

/-- How deep calls are nested in the term of a token. -/
def height (t : Token) : Nat :=
  (s.termAt t).height

/-- A call after the variables among its arguments. -/
def numbered (call : Token) : List Token :=
  (s.argumentsOf call).filter s.isVariable ++ [call]

/-- The tokens that are issued from `s` to `s'`. -/
def newTokens (s' : Store) : List Token :=
  (List.range' s.size (s'.size - s.size)).map .mk

end Store

namespace Forest

variable (f : Forest)

/-- The tokens of the roots, each after its arguments. -/
def postorder : List Token :=
  f.roots.flatMap f.store.postorder

/-- How deep calls are nested in the terms of the roots. -/
def height : Nat :=
  Term.heights (f.roots.map f.store.termAt)

/-- The calls of this height, from left to right. -/
def callsOfHeight (h : Nat) : List Token :=
  f.calls.filter fun t => f.store.height t = h

/-- The literals from left to right, then the calls of height one, two and so on, each after its own variables, at last
the variables among the roots. -/
def numbering : List Token :=
  f.postorder.filter f.store.isLiteral ++
    (List.range f.height).flatMap (fun h => (f.callsOfHeight (h + 1)).flatMap f.store.numbered) ++
    f.roots.filter f.store.isVariable

end Forest

namespace Store

variable {s s' s'' : Store} {depth : Nat} {t u : Token} {e : Entry}

theorem isLiteral_iff : s.isLiteral t = true ↔ ∃ content, s.get? t = some (.literal content) := by
  rw [isLiteral]
  split
  · next content h => exact iff_of_true rfl ⟨content, h⟩
  · next h => exact iff_of_false Bool.false_ne_true fun ⟨content, ht⟩ => h content ht

theorem isVariable_iff : s.isVariable t = true ↔ ∃ name, s.get? t = some (.variable name) := by
  rw [isVariable]
  split
  · next name h => exact iff_of_true rfl ⟨name, h⟩
  · next h => exact iff_of_false Bool.false_ne_true fun ⟨name, ht⟩ => h name ht

/-! ## Tokens after their arguments -/

theorem Ordered.lt_of_mem_argumentsOf (hs : s.Ordered) (hu : u ∈ s.argumentsOf t) :
    u.index < t.index ∧ t.index < s.size := by
  obtain ⟨name, arguments, ht, hu⟩ := exists_of_mem_argumentsOf hu
  exact ⟨hs t _ ht u hu, lt_size_of_get? ht⟩

/-- A greater depth gives the same tokens. -/
theorem Ordered.postorderWithin_eq (hs : s.Ordered) (hlt : t.index < depth) :
    s.postorderWithin depth t = s.postorderWithin (t.index + 1) t := by
  induction hn : t.index using Nat.strongRecOn generalizing t depth with
  | ind n ih =>
    obtain ⟨depth, rfl⟩ : ∃ k, depth = k + 1 := ⟨depth - 1, by omega⟩
    rw [postorderWithin, postorderWithin]
    refine congrArg (· ++ [t]) (List.flatMap_congr fun u hu => ?_)
    have hun : u.index < n := hn ▸ (hs.lt_of_mem_argumentsOf hu).1
    have hdepth : u.index < depth := by omega
    rw [ih u.index hun hdepth rfl, ih u.index hun hun rfl]

/-- **The tokens of a token are those of its arguments and itself.** -/
theorem Ordered.postorder_eq (hs : s.Ordered) (t : Token) :
    s.postorder t = (s.argumentsOf t).flatMap s.postorder ++ [t] := by
  rw [postorder, postorderWithin]
  refine congrArg (· ++ [t]) (List.flatMap_congr fun u hu => ?_)
  obtain ⟨hut, ht⟩ := hs.lt_of_mem_argumentsOf hu
  rw [postorder, hs.postorderWithin_eq (Nat.lt_trans hut ht)]
  exact (hs.postorderWithin_eq (by omega)).symm

theorem filter_postorderWithin (s : Store) (depth : Nat) (t : Token) :
    (s.postorderWithin depth t).filter s.isCall = s.callsWithin depth t := by
  induction depth generalizing t with
  | zero => rfl
  | succ depth ih =>
    rw [postorderWithin, callsWithin, List.filter_append, List.filter_flatMap]
    simp only [ih]
    split
    · next name arguments ht => simp [argumentsOf, ht, isCall, Entry.arguments]
    · next ht =>
      have hcall : s.isCall t = false := by
        rw [Bool.eq_false_iff, Ne, isCall_iff]
        rintro ⟨name, arguments, h⟩
        exact ht name arguments h
      have harguments : s.argumentsOf t = [] := by
        rw [List.eq_nil_iff_forall_not_mem]
        intro u hu
        obtain ⟨name, arguments, h, -⟩ := exists_of_mem_argumentsOf hu
        exact ht name arguments h
      simp [harguments, hcall]

end Store

/-- The calls among the tokens are the calls in postorder. -/
theorem Forest.filter_postorder (f : Forest) : f.postorder.filter f.store.isCall = f.calls := by
  rw [postorder, List.filter_flatMap]
  exact List.flatMap_congr fun t _ => f.store.filter_postorderWithin _ t

namespace Store

variable {s s' s'' : Store} {t u : Token} {e : Entry}

/-! ## Tokens of a step -/

theorem newTokens_self (s : Store) : s.newTokens s = [] := by
  simp [newTokens]

theorem newTokens_insert (s : Store) (e : Entry) : s.newTokens (s.insert e).1 = [(s.insert e).2] := by
  rw [newTokens, size_insert, Nat.add_sub_cancel_left]
  rfl

theorem newTokens_empty (s : Store) : empty.newTokens s = s.tokens := by
  rw [newTokens, tokens, List.range_eq_range']
  rfl

/-- The tokens of one step and then of another. -/
theorem Grows.newTokens_append (h : s.Grows s') (h' : s'.Grows s'') :
    s.newTokens s' ++ s'.newTokens s'' = s.newTokens s'' := by
  have hle := h.size_le
  have hle' := h'.size_le
  have hsize : s'.size = s.size + 1 * (s'.size - s.size) := by omega
  rw [newTokens, newTokens, newTokens, ← List.map_append]
  nth_rewrite 2 [hsize]
  rw [List.range'_append]
  congr 2
  omega

end Store

end CallExpr

import CallExpr.Proofs.LinearForest
import Mathlib.Data.List.Nodup
import Mathlib.Data.List.Perm.Basic

/-!
# The walk over a forest

* `Point`: where a walk over an expression stops: at a literal or a variable, at a call before its arguments, and at a
  call after them.
* `Forest.walk`: the points from left to right, and `Forest.calls`: the calls, each after those in its arguments. These
  are the calls that the walk carries out (`Forest.filterMap_walk`).
* `Forest.Linear.count_calls`: in a linear forest they are the calls of the store, each once.
-/

namespace CallExpr

/-- Where a walk over an expression stops. -/
inductive Point where
  /-- At a token that stands for no call. -/
  | leaf (t : Token)
  /-- At a call, before its arguments: its function is looked up. -/
  | lookUp (call : Token)
  /-- At a call, after its arguments: its function runs. -/
  | execute (call : Token)
  deriving DecidableEq, Repr

/-- The call that is carried out at the point. -/
def Point.executed? : Point → Option Token
  | execute call => some call
  | _ => none

namespace Store

variable (s : Store)

/-- The points of a token, in which at most `depth` entries are nested. -/
def walkWithin : (depth : Nat) → Token → List Point
  | 0, _ => []
  | depth + 1, t =>
    match s.get? t with
    | some (.call _ arguments) => .lookUp t :: arguments.flatMap (walkWithin depth) ++ [.execute t]
    | _ => [.leaf t]

/-- The calls of a token in postorder, in which at most `depth` entries are nested. -/
def callsWithin : (depth : Nat) → Token → List Token
  | 0, _ => []
  | depth + 1, t =>
    match s.get? t with
    | some (.call _ arguments) => arguments.flatMap (callsWithin depth) ++ [t]
    | _ => []

/-- The points of a token. In a store without cycles no chain of references is longer than the store. -/
def walk (t : Token) : List Point :=
  s.walkWithin (s.size + 1) t

/-- The calls of a token, each after those in its arguments. -/
def calls (t : Token) : List Token :=
  s.callsWithin (s.size + 1) t

/-- Does the token stand for a call? -/
def isCall (t : Token) : Bool :=
  match s.get? t with
  | some (.call _ _) => true
  | _ => false

/-- The tokens that the entry of a token refers to. -/
def argumentsOf (t : Token) : List Token :=
  (s.get? t).elim [] Entry.arguments

/-- The tokens that have entries. -/
def tokens : List Token :=
  (List.range s.size).map .mk

end Store

namespace Forest

variable (f : Forest)

/-- The points of the roots, from left to right. -/
def walk : List Point :=
  f.roots.flatMap f.store.walk

/-- The calls of the roots in postorder. -/
def calls : List Token :=
  f.roots.flatMap f.store.calls

end Forest

/-! ## What the walk carries out -/

section Executed

variable {s : Store} {depth : Nat} {t : Token}

theorem Store.walkWithin_of_call {name : String} {arguments : List Token}
    (ht : s.get? t = some (.call name arguments)) :
    s.walkWithin (depth + 1) t = .lookUp t :: (arguments.flatMap (s.walkWithin depth) ++ [.execute t]) := by
  rw [walkWithin, ht]
  rfl

theorem Store.walkWithin_of_not_call (ht : ∀ name arguments, s.get? t ≠ some (.call name arguments)) :
    s.walkWithin (depth + 1) t = [.leaf t] := by
  rw [walkWithin]
  split
  · next name arguments h => exact absurd h (ht name arguments)
  · rfl

theorem Store.filterMap_walkWithin (s : Store) (depth : Nat) (t : Token) :
    (s.walkWithin depth t).filterMap Point.executed? = s.callsWithin depth t := by
  induction depth generalizing t with
  | zero => rfl
  | succ depth ih =>
    rw [walkWithin, callsWithin]
    split
    · simp only [List.cons_append, List.filterMap_cons, List.filterMap_append, List.filterMap_flatMap, ih,
        Point.executed?, List.filterMap_nil]
    · rfl

/-- The walk carries out the calls in postorder. -/
theorem Forest.filterMap_walk (f : Forest) : f.walk.filterMap Point.executed? = f.calls := by
  rw [walk, List.filterMap_flatMap]
  exact List.flatMap_congr fun t _ => f.store.filterMap_walkWithin _ t

end Executed

/-! ## Each call once -/

namespace Store

variable {s : Store} {depth : Nat} {t u : Token}

theorem isCall_iff : s.isCall t = true ↔ ∃ name arguments, s.get? t = some (.call name arguments) := by
  rw [isCall]
  split
  · next name arguments h => exact iff_of_true rfl ⟨name, arguments, h⟩
  · next h => exact iff_of_false Bool.false_ne_true fun ⟨name, arguments, ht⟩ => h name arguments ht

theorem lt_size_of_isCall (h : s.isCall t = true) : t.index < s.size := by
  obtain ⟨name, arguments, h⟩ := isCall_iff.mp h
  exact lt_size_of_get? h

theorem argumentsOf_of_get? {e : Entry} (h : s.get? t = some e) : s.argumentsOf t = e.arguments := by
  rw [argumentsOf, h]
  rfl

theorem exists_of_mem_argumentsOf (h : u ∈ s.argumentsOf t) :
    ∃ name arguments, s.get? t = some (.call name arguments) ∧ u ∈ arguments := by
  rw [argumentsOf] at h
  rcases ht : s.get? t with _ | ⟨_⟩ | ⟨_⟩ | ⟨name, arguments⟩ <;> rw [ht] at h
  · cases h
  · cases h
  · cases h
  · exact ⟨name, arguments, rfl, h⟩

theorem count_tokens (h : t.index < s.size) : s.tokens.count t = 1 := by
  refine List.count_eq_one_of_mem ?_ (List.mem_map.mpr ⟨t.index, List.mem_range.mpr h, rfl⟩)
  exact List.nodup_range.map fun i j hij => Token.mk.inj hij

theorem flatMap_argumentsOf_tokens (s : Store) : s.tokens.flatMap s.argumentsOf = s.references := by
  have hentries : (List.range s.size).map (fun i => s.get? ⟨i⟩) = s.toList.map some := by
    refine List.ext_getElem? fun i => ?_
    rw [List.getElem?_map, List.getElem?_map, size_eq_length]
    rcases Nat.lt_or_ge i s.toList.length with hlt | hge
    · simp [List.getElem?_range hlt, get?_eq_toList, List.getElem?_eq_getElem hlt]
    · simp [hge]
  calc s.tokens.flatMap s.argumentsOf
      = ((List.range s.size).map fun i => s.get? ⟨i⟩).flatMap fun e? => e?.elim [] Entry.arguments := by
        rw [tokens, List.flatMap_map, List.flatMap_map]
        rfl
    _ = s.references := by
        rw [hentries, List.flatMap_map]
        rfl

/-- A call is listed for each place in which it is referred to: by a list of tokens, or by a listed call. -/
theorem count_flatMap_callsWithin {tokens : List Token} {terms : List Term}
    (h : ∀ t term, s.unfoldWithin depth t = some term → (s.callsWithin depth t).count u =
      [t].count u + ((s.callsWithin depth t).flatMap s.argumentsOf).count u)
    (hterms : tokens.mapM (s.unfoldWithin depth) = some terms) :
    (tokens.flatMap (s.callsWithin depth)).count u =
      tokens.count u + ((tokens.flatMap (s.callsWithin depth)).flatMap s.argumentsOf).count u := by
  induction tokens generalizing terms with
  | nil => rfl
  | cons t tokens ih =>
    obtain ⟨term, hterm, rest, hrest, rfl⟩ := mapM_cons_eq_some_iff.mp hterms
    have hfirst := h t term hterm
    have hlater := ih hrest
    rw [← List.singleton_append, List.flatMap_append, List.flatMap_singleton, List.flatMap_append]
    simp only [List.count_append]
    omega

theorem count_callsWithin {term : Term} (hu : s.isCall u = true) (h : s.unfoldWithin depth t = some term) :
    (s.callsWithin depth t).count u =
      [t].count u + ((s.callsWithin depth t).flatMap s.argumentsOf).count u := by
  induction depth generalizing t term with
  | zero => cases h
  | succ depth ih =>
    rw [callsWithin]
    split
    · next name arguments ht =>
      rw [unfoldWithin_of_get? _ ht] at h
      obtain ⟨terms, hterms, -⟩ := Option.map_eq_some_iff.mp h
      have harguments := count_flatMap_callsWithin (fun _ _ => ih) hterms
      rw [List.flatMap_append, List.flatMap_singleton, argumentsOf_of_get? ht]
      simp only [List.count_append, Entry.arguments]
      omega
    · next ht =>
      have hne : u ≠ t := by
        rintro rfl
        obtain ⟨name, arguments, hu⟩ := isCall_iff.mp hu
        exact ht name arguments hu
      simp [hne.symm]

theorem isCall_of_mem_callsWithin (h : u ∈ s.callsWithin depth t) : s.isCall u = true := by
  induction depth generalizing t with
  | zero => cases h
  | succ depth ih =>
    rw [callsWithin] at h
    split at h
    · next name arguments ht =>
      rcases List.mem_append.mp h with h | h
      · obtain ⟨v, -, hv⟩ := List.mem_flatMap.mp h
        exact ih hv
      · obtain rfl := List.mem_singleton.mp h
        exact isCall_iff.mpr ⟨name, arguments, ht⟩
    · cases h

end Store

/-- What is counted in lists that are put together depends on the lists that have it. -/
theorem count_flatMap_congr {α β : Type} [DecidableEq α] [DecidableEq β] {l l' : List α} {g : α → List β} {b : β}
    (h : ∀ a, b ∈ g a → l.count a = l'.count a) : (l.flatMap g).count b = (l'.flatMap g).count b := by
  have hfilter : ∀ l : List α, (l.flatMap g).count b = ((l.filter fun a => b ∈ g a).flatMap g).count b := by
    intro l
    induction l with
    | nil => rfl
    | cons a l ih =>
      by_cases ha : b ∈ g a
      · rw [List.filter_cons_of_pos (by simpa using ha), List.flatMap_cons, List.flatMap_cons, List.count_append,
          List.count_append, ih]
      · rw [List.filter_cons_of_neg (by simpa using ha), List.flatMap_cons, List.count_append, ih,
          List.count_eq_zero_of_not_mem ha, Nat.zero_add]
  have hperm : (l.filter fun a => b ∈ g a).Perm (l'.filter fun a => b ∈ g a) := by
    rw [List.perm_iff_count]
    intro a
    by_cases ha : b ∈ g a
    · rw [List.count_filter (by simpa using ha), List.count_filter (by simpa using ha), h a ha]
    · rw [List.count_eq_zero_of_not_mem (by simp [ha]), List.count_eq_zero_of_not_mem (by simp [ha])]
  rw [hfilter l, hfilter l', (hperm.flatMap_right g).count_eq]

namespace Forest

variable {f : Forest} {u : Token}

theorem isCall_of_mem_calls (h : u ∈ f.calls) : f.store.isCall u = true := by
  obtain ⟨root, -, hu⟩ := List.mem_flatMap.mp h
  exact Store.isCall_of_mem_callsWithin hu

/-- **Each call of a linear forest is listed once.** -/
theorem Linear.count_calls (h : f.Linear) (hu : f.store.isCall u = true) : f.calls.count u = 1 := by
  have hroots : f.roots.mapM (f.store.unfoldWithin (f.store.size + 1)) = some (f.roots.map f.store.termAt) := by
    refine mapM_eq_some_map fun t ht => ?_
    have hlt := h.stored t (List.mem_append_left _ ht)
    exact h.ordered.unfoldWithin_of_lt (Nat.le_of_lt hlt) (Nat.lt_succ_of_lt hlt)
  -- What refers to a token stands nearer to the end of the store.
  induction hn : f.store.size - u.index using Nat.strongRecOn generalizing u with
  | ind n ih =>
    have hcount := Store.count_flatMap_callsWithin (fun _ _ => Store.count_callsWithin hu) hroots
    have hreferences : (f.calls.flatMap f.store.argumentsOf).count u = f.store.references.count u := by
      rw [← f.store.flatMap_argumentsOf_tokens]
      refine count_flatMap_congr fun t ht => ?_
      obtain ⟨name, arguments, he, hmem⟩ := Store.exists_of_mem_argumentsOf ht
      have hlt := h.ordered t _ he u hmem
      have hsize := Store.lt_size_of_get? he
      rw [ih (f.store.size - t.index) (by omega) (Store.isCall_iff.mpr ⟨name, arguments, he⟩) rfl,
        Store.count_tokens hsize]
    have honce := h.once u (Store.lt_size_of_isCall hu)
    rw [List.count_append] at honce
    calc f.calls.count u = f.roots.count u + (f.calls.flatMap f.store.argumentsOf).count u := hcount
      _ = 1 := by rw [hreferences, honce]

/-- A linear forest lists the calls of its store, each once. -/
theorem Linear.nodup_calls (h : f.Linear) : f.calls.Nodup := by
  rw [List.nodup_iff_count_le_one]
  intro u
  by_cases hu : u ∈ f.calls
  · exact (h.count_calls (isCall_of_mem_calls hu)).le
  · rw [List.count_eq_zero_of_not_mem hu]
    exact Nat.zero_le 1

theorem Linear.mem_calls_iff (h : f.Linear) :
    u ∈ f.calls ↔ ∃ name arguments, f.store.get? u = some (.call name arguments) := by
  rw [← Store.isCall_iff]
  refine ⟨isCall_of_mem_calls, fun hu => ?_⟩
  rw [← List.count_pos_iff, h.count_calls hu]
  exact Nat.one_pos

end Forest

end CallExpr

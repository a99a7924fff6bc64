import CallExpr.Store.Term

/-!
# Terms of a store without cycles

* `Store.Ordered`: arguments are issued before the calls that use them.
* `Store.Grows`: a store with more entries at its end.
* `Store.termAt`: the term of a token. In an ordered store it is the entry with the terms of its arguments
  (`Store.Ordered.termAt_eq`), every token unfolds to it (`Store.Ordered.unfolds`), and growing does not change it
  (`Store.termAt_of_grows`).
* `Forest.Unfolds.unique`: the roots of a forest unfold in one way only.
* `Term.fill`: a term with terms in place of its tokens.
-/

namespace CallExpr

/-! ## Many at once -/

section MapM

variable {α β : Type} {f g : α → Option β}

theorem mapM_eq_some_map {f : α → Option β} {g : α → β} {l : List α} (h : ∀ a ∈ l, f a = some (g a)) :
    l.mapM f = some (l.map g) := by
  induction l with
  | nil => rfl
  | cons a l ih =>
    obtain ⟨ha, h⟩ := List.forall_mem_cons.mp h
    simp [List.mapM_cons, ha, ih h]

theorem mapM_cons_eq_some_iff {a : α} {l : List α} {l' : List β} :
    (a :: l).mapM f = some l' ↔ ∃ b, f a = some b ∧ ∃ bs, l.mapM f = some bs ∧ b :: bs = l' := by
  simp only [List.mapM_cons, Option.bind_eq_bind, Option.bind_eq_some_iff, Option.pure_def, Option.some.injEq]

theorem mapM_mono {l : List α} {l' : List β} (hfg : ∀ a ∈ l, ∀ b, f a = some b → g a = some b)
    (h : l.mapM f = some l') : l.mapM g = some l' := by
  induction l generalizing l' with
  | nil => exact h
  | cons a l ih =>
    obtain ⟨ha, hfg⟩ := List.forall_mem_cons.mp hfg
    obtain ⟨b, hb, bs, hbs, rfl⟩ := mapM_cons_eq_some_iff.mp h
    exact mapM_cons_eq_some_iff.mpr ⟨b, ha b hb, bs, ih hfg hbs, rfl⟩

theorem exists_of_mapM_eq_some {l : List α} {l' : List β} (h : l.mapM f = some l') {a : α} (ha : a ∈ l) :
    ∃ b, f a = some b := by
  induction l generalizing l' with
  | nil => cases ha
  | cons a' l ih =>
    obtain ⟨b, hb, bs, hbs, rfl⟩ := mapM_cons_eq_some_iff.mp h
    rcases List.mem_cons.mp ha with rfl | ha
    · exact ⟨b, hb⟩
    · exact ih hbs ha

end MapM

namespace Entry

/-- An entry as a term, given the terms of its arguments. -/
def term (f : Token → Term) : Entry → Term
  | .literal content => .literal content
  | .variable name => .variable name
  | .call name arguments => .call name (arguments.map f)

/-- An entry as a term, if its arguments have terms. -/
def term? (f : Token → Option Term) : Entry → Option Term
  | .literal content => some (.literal content)
  | .variable name => some (.variable name)
  | .call name arguments => (arguments.mapM f).map (.call name)

variable {e : Entry}

theorem term_congr {f g : Token → Term} (h : ∀ u ∈ e.arguments, f u = g u) : e.term f = e.term g := by
  cases e with
  | literal content => rfl
  | «variable» name => rfl
  | call name arguments => exact congrArg (Term.call name) (List.map_congr_left h)

theorem term?_eq_some {f : Token → Option Term} {g : Token → Term} (h : ∀ u ∈ e.arguments, f u = some (g u)) :
    e.term? f = some (e.term g) := by
  cases e with
  | literal content => rfl
  | «variable» name => rfl
  | call name arguments =>
    have hmap : arguments.mapM f = some (arguments.map g) := mapM_eq_some_map h
    rw [term?, hmap]
    rfl

theorem term?_mono {f g : Token → Option Term} {term : Term} (hfg : ∀ u ∈ e.arguments, ∀ b, f u = some b → g u = some b)
    (h : e.term? f = some term) : e.term? g = some term := by
  cases e with
  | literal content => exact h
  | «variable» name => exact h
  | call name arguments =>
    obtain ⟨terms, hterms, rfl⟩ := Option.map_eq_some_iff.mp h
    exact Option.map_eq_some_iff.mpr ⟨terms, mapM_mono hfg hterms, rfl⟩

end Entry

namespace Store

variable {s s' s'' : Store} {t : Token} {e : Entry}

/-! ## Stores that grow -/

/-- The arguments of a call are issued before the call. -/
def Ordered (s : Store) : Prop :=
  ∀ t e, s.get? t = some e → ∀ u ∈ e.arguments, u.index < t.index

/-- The entries of `s` are the first entries of `s'`. -/
def Grows (s s' : Store) : Prop :=
  ∃ more, s'.toList = s.toList ++ more

theorem get?_eq_toList (s : Store) (t : Token) : s.get? t = s.toList[t.index]? := by
  simp [get?, toList]

theorem size_eq_length (s : Store) : s.size = s.toList.length := by
  simp [size, toList]

theorem Grows.refl (s : Store) : s.Grows s :=
  ⟨[], by simp⟩

theorem Grows.trans (h : s.Grows s') (h' : s'.Grows s'') : s.Grows s'' := by
  obtain ⟨more, h⟩ := h
  obtain ⟨more', h'⟩ := h'
  exact ⟨more ++ more', by rw [h', h, List.append_assoc]⟩

theorem grows_insert (s : Store) (e : Entry) : s.Grows (s.insert e).1 :=
  ⟨[e], toList_insert s e⟩

theorem Grows.size_le (h : s.Grows s') : s.size ≤ s'.size := by
  obtain ⟨more, h⟩ := h
  simp [size_eq_length, h]

theorem Grows.get? (h : s.Grows s') (ht : t.index < s.size) : s'.get? t = s.get? t := by
  obtain ⟨more, h⟩ := h
  rw [size_eq_length] at ht
  rw [get?_eq_toList, get?_eq_toList, h, List.getElem?_append_left ht]

theorem lt_size_of_get? (h : s.get? t = some e) : t.index < s.size :=
  isSome_get?_iff.mp (by rw [h]; rfl)

theorem insert_index (s : Store) (e : Entry) : (s.insert e).2.index = s.size := rfl

theorem ordered_empty : empty.Ordered := by
  intro t e h
  simp [empty, Store.get?] at h

/-- An entry whose arguments are in the store keeps it ordered. -/
theorem Ordered.insert (h : s.Ordered) (he : ∀ u ∈ e.arguments, u.index < s.size) : (s.insert e).1.Ordered := by
  intro t e' ht u hu
  by_cases hlt : t.index < s.size
  · rw [get?_insert_of_lt hlt] at ht
    exact h t e' ht u hu
  · have hlast : t = (s.insert e).2 := by
      have := lt_size_of_get? ht
      rw [size_insert] at this
      obtain ⟨i⟩ := t
      have : i = s.size := by dsimp only at this hlt; omega
      rw [this]
      rfl
    rw [hlast, get?_insert_self] at ht
    obtain rfl := Option.some.inj ht
    rw [hlast]
    exact he u hu

/-! ## The term of a token -/

theorem unfoldWithin_of_get? (depth : Nat) (h : s.get? t = some e) :
    s.unfoldWithin (depth + 1) t = e.term? (s.unfoldWithin depth) := by
  cases e <;> simp only [unfoldWithin, h, Entry.term?]

theorem unfoldWithin_of_none (depth : Nat) (h : s.get? t = none) :
    s.unfoldWithin (depth + 1) t = some (.missing t) := by
  rw [unfoldWithin, h]

/-- A greater depth gives the same term. -/
theorem unfoldWithin_mono {depth depth' : Nat} {term : Term} (hle : depth ≤ depth')
    (h : s.unfoldWithin depth t = some term) : s.unfoldWithin depth' t = some term := by
  induction depth generalizing depth' t term with
  | zero => cases h
  | succ depth ih =>
    obtain ⟨depth', rfl⟩ : ∃ k, depth' = k + 1 := ⟨depth' - 1, by omega⟩
    cases he : s.get? t with
    | none =>
      rw [unfoldWithin_of_none _ he] at h ⊢
      exact h
    | some e =>
      rw [unfoldWithin_of_get? _ he] at h ⊢
      exact Entry.term?_mono (fun u _ _ hu => ih (Nat.le_of_succ_le_succ hle) hu) h

/-- The term of a token; in a store without cycles no chain of references is longer than the store. -/
def termAt (s : Store) (t : Token) : Term :=
  (s.unfoldWithin (s.size + 1) t).getD (.missing t)

/-- In an ordered store the depth of a token is at most its number. -/
theorem Ordered.unfoldWithin_eq (h : s.Ordered) (t : Token) (ht : t.index ≤ s.size) :
    s.unfoldWithin (t.index + 1) t = some (s.termAt t) := by
  suffices hsome : ∃ term, s.unfoldWithin (t.index + 1) t = some term by
    obtain ⟨term, hterm⟩ := hsome
    rw [termAt, unfoldWithin_mono (Nat.succ_le_succ ht) hterm, hterm, Option.getD_some]
  induction hn : t.index using Nat.strongRecOn generalizing t with
  | ind n ih =>
    cases he : s.get? t with
    | none => exact ⟨_, unfoldWithin_of_none n he⟩
    | some e =>
      have hargs : ∀ u ∈ e.arguments, s.unfoldWithin n u = some ((s.unfoldWithin n u).getD (.missing u)) := by
        intro u hu
        have hlt : u.index < n := hn ▸ h t e he u hu
        obtain ⟨term, hterm⟩ := ih u.index hlt u (by omega) rfl
        rw [unfoldWithin_mono hlt hterm, Option.getD_some]
      exact ⟨_, (unfoldWithin_of_get? n he).trans (Entry.term?_eq_some hargs)⟩

theorem Ordered.unfoldWithin_of_lt (h : s.Ordered) {depth : Nat} (ht : t.index ≤ s.size) (hlt : t.index < depth) :
    s.unfoldWithin depth t = some (s.termAt t) :=
  unfoldWithin_mono hlt (h.unfoldWithin_eq t ht)

theorem Ordered.unfolds (h : s.Ordered) (ht : t.index < s.size) : s.Unfolds t (s.termAt t) :=
  ⟨_, h.unfoldWithin_eq t (Nat.le_of_lt ht)⟩

/-- **The term of a token is its entry with the terms of the arguments.** -/
theorem Ordered.termAt_eq (h : s.Ordered) (he : s.get? t = some e) : s.termAt t = e.term s.termAt := by
  have hlt := lt_size_of_get? he
  have hterm := h.unfoldWithin_eq t (Nat.le_of_lt hlt)
  have hargs : ∀ u ∈ e.arguments, s.unfoldWithin t.index u = some (s.termAt u) := by
    intro u hu
    have hu := h t e he u hu
    exact h.unfoldWithin_of_lt (Nat.le_of_lt (Nat.lt_trans hu hlt)) hu
  rw [unfoldWithin_of_get? _ he, Entry.term?_eq_some hargs] at hterm
  exact (Option.some.inj hterm).symm

/-- A store that grows keeps the terms of its tokens. -/
theorem termAt_of_grows (h : s.Ordered) (h' : s'.Ordered) (hgrows : s.Grows s') (ht : t.index < s.size) :
    s'.termAt t = s.termAt t := by
  induction hn : t.index using Nat.strongRecOn generalizing t with
  | ind n ih =>
    obtain ⟨e, he⟩ := Option.isSome_iff_exists.mp (isSome_get?_iff.mpr ht)
    rw [h.termAt_eq he, h'.termAt_eq ((hgrows.get? ht).trans he)]
    refine Entry.term_congr fun u hu => ?_
    have hlt := h t e he u hu
    exact ih u.index (hn ▸ hlt) (Nat.lt_trans hlt ht) rfl

end Store

/-- In an ordered store the roots unfold to their terms. -/
theorem Forest.unfolds_map_termAt {f : Forest} (h : f.store.Ordered) (hroots : ∀ u ∈ f.roots, u.index < f.store.size) :
    f.Unfolds (f.roots.map f.store.termAt) :=
  ⟨f.store.size, mapM_eq_some_map fun u hu => h.unfoldWithin_of_lt (Nat.le_of_lt (hroots u hu)) (hroots u hu)⟩

/-- The roots of a forest unfold in one way only. -/
theorem Forest.Unfolds.unique {f : Forest} {terms terms' : List Term} (h : f.Unfolds terms) (h' : f.Unfolds terms') :
    terms = terms' := by
  obtain ⟨depth, h⟩ := h
  obtain ⟨depth', h'⟩ := h'
  have hmax : ∀ {k : Nat} {ts : List Term}, k ≤ max depth depth' → f.roots.mapM (f.store.unfoldWithin k) = some ts →
      f.roots.mapM (f.store.unfoldWithin (max depth depth')) = some ts :=
    fun hle => mapM_mono fun _ _ _ => Store.unfoldWithin_mono hle
  have heq := (hmax (Nat.le_max_left _ _) h).symm.trans (hmax (Nat.le_max_right _ _) h')
  exact Option.some.inj heq

/-! ## Terms in place of tokens -/

namespace Term

mutual

/-- Puts terms in place of the tokens. -/
def fill (f : Token → Term) : Term → Term
  | missing t => f t
  | literal content => literal content
  | .variable name => .variable name
  | call name arguments => call name (fillAll f arguments)

def fillAll (f : Token → Term) : List Term → List Term
  | [] => []
  | t :: ts => fill f t :: fillAll f ts

end

mutual

/-- The tokens in a term, from left to right. -/
def tokens : Term → List Token
  | missing t => [t]
  | call _ arguments => tokensAll arguments
  | _ => []

def tokensAll : List Term → List Token
  | [] => []
  | t :: ts => tokens t ++ tokensAll ts

end

variable {f g : Token → Term}

theorem fillAll_eq_map (f : Token → Term) (ts : List Term) : fillAll f ts = ts.map (fill f) := by
  induction ts with
  | nil => rfl
  | cons t ts ih => rw [fillAll, ih, List.map_cons]

theorem fillAll_append (ts us : List Term) : fillAll f (ts ++ us) = fillAll f ts ++ fillAll f us := by
  rw [fillAll_eq_map, List.map_append, ← fillAll_eq_map, ← fillAll_eq_map]

theorem tokensAll_append (ts us : List Term) : tokensAll (ts ++ us) = tokensAll ts ++ tokensAll us := by
  induction ts with
  | nil => rfl
  | cons t ts ih => rw [List.cons_append, tokensAll, ih, tokensAll, List.append_assoc]

theorem tokensAll_map_missing (ts : List Token) : tokensAll (ts.map missing) = ts := by
  induction ts with
  | nil => rfl
  | cons t ts ih => rw [List.map_cons, tokensAll, ih, tokens, List.singleton_append]

mutual

theorem fill_congr : ∀ {t : Term}, (∀ u ∈ tokens t, f u = g u) → fill f t = fill g t
  | missing t, h => h t List.mem_cons_self
  | literal _, _ => rfl
  | .variable _, _ => rfl
  | call name _, h => congrArg (call name) (fillAll_congr h)

theorem fillAll_congr : ∀ {ts : List Term}, (∀ u ∈ tokensAll ts, f u = g u) → fillAll f ts = fillAll g ts
  | [], _ => rfl
  | t :: ts, h => by
    rw [fillAll, fillAll, fill_congr fun u hu => h u (List.mem_append_left _ hu),
      fillAll_congr fun u hu => h u (List.mem_append_right _ hu)]

end

mutual

/-- Tokens in place of tokens change nothing. -/
theorem fill_missing : ∀ t : Term, fill missing t = t
  | missing _ => rfl
  | literal _ => rfl
  | .variable _ => rfl
  | call name arguments => congrArg (call name) (fillAll_missing arguments)

theorem fillAll_missing : ∀ ts : List Term, fillAll missing ts = ts
  | [] => rfl
  | t :: ts => by rw [fillAll, fill_missing t, fillAll_missing ts]

end

/-- A term without tokens stays as it is. -/
theorem fillAll_of_tokensAll {ts : List Term} (h : tokensAll ts = []) : fillAll f ts = ts := by
  rw [fillAll_congr (g := missing) (by simp [h]), fillAll_missing]

end Term

end CallExpr

import CallExpr.Proofs.Writable
import Mathlib.Logic.Relation

/-!
# Each token is used once

* `Store.Refers`: the entry of a token has another among its arguments. In an ordered store no token refers to itself
  through others (`Store.Ordered.acyclic`).
* `Forest.Linear`: every token of the forest is used once, by a root or by an entry after its own. Such a forest has
  entries for all of its tokens (`Forest.Linear.dangling?_eq_none`), and every entry is reached from a root
  (`Forest.Linear.reachable`).
* `Forest.linear_ofTerms`: the numbering of terms is linear.
* `Dialect.read_linear`: so is the forest of a source.
-/

namespace CallExpr

namespace Store

variable {s : Store} {t u : Token}

/-- The entry of `t` has `u` among its arguments. -/
def Refers (s : Store) (t u : Token) : Prop :=
  ∃ e, s.get? t = some e ∧ u ∈ e.arguments

theorem mem_references_iff : u ∈ s.references ↔ ∃ t, s.Refers t u := by
  rw [references, List.mem_flatMap]
  constructor
  · rintro ⟨e, he, hu⟩
    obtain ⟨i, hi, rfl⟩ := List.mem_iff_getElem.mp he
    exact ⟨⟨i⟩, s.toList[i], by rw [get?_eq_toList, List.getElem?_eq_getElem hi], hu⟩
  · rintro ⟨t, e, he, hu⟩
    rw [get?_eq_toList] at he
    exact ⟨e, List.mem_of_getElem? he, hu⟩

theorem Refers.lt_size (h : s.Refers t u) : t.index < s.size := by
  obtain ⟨e, he, -⟩ := h
  exact lt_size_of_get? he

/-- The term of a token has terms for the tokens that it refers to, with one level less. -/
theorem exists_unfoldWithin_of_refers {n : Nat} {term : Term} (hterm : s.unfoldWithin (n + 1) t = some term)
    (h : s.Refers t u) : ∃ term', s.unfoldWithin n u = some term' := by
  obtain ⟨e, he, hu⟩ := h
  rw [unfoldWithin_of_get? _ he] at hterm
  cases e with
  | literal | «variable» => cases hu
  | call name arguments =>
    obtain ⟨terms, hterms, -⟩ := Option.map_eq_some_iff.mp hterm
    exact exists_of_mapM_eq_some hterms hu

theorem Ordered.lt_of_refers (hs : s.Ordered) (h : s.Refers t u) : u.index < t.index := by
  obtain ⟨e, he, hu⟩ := h
  exact hs t e he u hu

theorem Ordered.lt_of_transGen (hs : s.Ordered) (h : Relation.TransGen s.Refers t u) : u.index < t.index := by
  induction h with
  | single h => exact hs.lt_of_refers h
  | tail _ h ih => exact Nat.lt_trans (hs.lt_of_refers h) ih

/-- No token refers to itself through others. -/
theorem Ordered.acyclic (hs : s.Ordered) (t : Token) : ¬ Relation.TransGen s.Refers t t :=
  fun h => Nat.lt_irrefl _ (hs.lt_of_transGen h)

end Store

namespace Forest

variable {f : Forest} {terms : List Term} {u : Token}

/-- Each token of the store is used once, by a root or by a call after it, and no other token is. -/
structure Linear (f : Forest) : Prop where
  once : ∀ u, u.index < f.store.size → (f.roots ++ f.store.references).count u = 1
  stored : ∀ u ∈ f.roots ++ f.store.references, u.index < f.store.size
  ordered : f.store.Ordered

/-- Every token has an entry. -/
theorem Linear.dangling?_eq_none (h : f.Linear) : f.dangling? = none := by
  rw [dangling?, List.find?_eq_none]
  intro u hu
  simpa [Store.contains] using h.stored u hu

/-- Every entry is reached from a root. -/
theorem Linear.reachable (h : f.Linear) (hu : u.index < f.store.size) :
    ∃ root ∈ f.roots, Relation.ReflTransGen f.store.Refers root u := by
  -- What refers to a token stands nearer to the end of the store.
  induction hn : f.store.size - u.index using Nat.strongRecOn generalizing u with
  | ind n ih =>
    have hmem : u ∈ f.roots ++ f.store.references := by
      rw [← List.count_pos_iff, h.once u hu]
      exact Nat.one_pos
    rcases List.mem_append.mp hmem with hroot | hreference
    · exact ⟨u, hroot, .refl⟩
    · obtain ⟨t, ht⟩ := Store.mem_references_iff.mp hreference
      have hlt := h.ordered.lt_of_refers ht
      have hsize := ht.lt_size
      obtain ⟨root, hroot, hpath⟩ := ih (f.store.size - t.index) (by omega) hsize rfl
      exact ⟨root, hroot, hpath.tail ht⟩

/-- **The numbering of terms is linear.** -/
theorem linear_ofTerms (h : Term.tokensAll terms = []) : (ofTerms terms).Linear := by
  have hkeeps := keeps_ofTerms h
  have hcount : ∀ u, ((ofTerms terms).roots ++ (ofTerms terms).store.references).count u =
      (ofTerms terms).store.issued u := by
    intro u
    have hbalance := hkeeps.balance u
    rw [Term.tokensAll_map_missing, h] at hbalance
    rw [List.count_append]
    simpa [Store.uses, Store.issued, Store.references, Store.empty, Store.size, Store.toList] using hbalance
  refine ⟨fun u hu => ?_, fun u hu => ?_, hkeeps.ordered⟩
  · rw [hcount, Store.issued, if_pos hu]
  · by_contra hsize
    rw [← List.count_pos_iff, hcount, Store.issued, if_neg hsize] at hu
    exact Nat.lt_irrefl 0 hu

end Forest

namespace Dialect

variable {d : Dialect} {source : String} {forest : Forest}

/-- **The forest of a source is linear.** It has an entry for each of its tokens, no cycles, and no entry that is not
reached from a root. Nothing of the source is lost: the forest unfolds to a derivation of all of its items. -/
theorem read_linear (h : (d.read source).result = .ok forest) :
    ((∀ u, u.index < forest.store.size → (forest.roots ++ forest.store.references).count u = 1) ∧
      (∀ u, forest.store.size ≤ u.index → u ∉ forest.roots ++ forest.store.references) ∧
      ∀ t name arguments, forest.store.get? t = some (.call name arguments) → ∀ u ∈ arguments, u.index < t.index) ∧
    forest.dangling? = none ∧
    (∀ t, ¬ Relation.TransGen forest.store.Refers t t) ∧
    (∀ t, t.index < forest.store.size → ∃ root ∈ forest.roots, Relation.ReflTransGen forest.store.Refers root t) ∧
    ∃ lexemes terms, Lexeme.scan source = .ok lexemes ∧
      Grammar.IsForest d.delimiter (literalItems (Item.ofLexemes lexemes)) terms ∧ forest.Unfolds terms := by
  obtain ⟨-, lexemes, terms, hscan, hterms, -, rfl⟩ := read_eq_ok_iff.mp h
  have htokens := tokensAll_of_readTerms hscan hterms
  have hlinear := Forest.linear_ofTerms htokens
  refine ⟨⟨hlinear.once, ?_, ?_⟩, hlinear.dangling?_eq_none, hlinear.ordered.acyclic, fun t => hlinear.reachable,
    lexemes, terms, hscan, isForest_of_readTerms hterms, Forest.unfolds_ofTerms htokens⟩
  · intro u hsize hu
    exact absurd (hlinear.stored u hu) (Nat.not_lt.mpr hsize)
  · intro t name arguments hcall u hu
    exact hlinear.ordered t _ hcall u hu

theorem read_linear_nested : ∃ forest, (Dialect.read {} "f(x, x, g('a'), ) x").result = .ok forest ∧
    (∀ u, u.index < forest.store.size → (forest.roots ++ forest.store.references).count u = 1) ∧
    forest.dangling? = none := by
  have hread : (Dialect.read {} "f(x, x, g('a'), ) x").result =
      .ok ⟨⟨#[.literal "a", .call "g" [⟨0⟩], .variable "x", .variable "x", .variable "",
        .call "f" [⟨2⟩, ⟨3⟩, ⟨1⟩, ⟨4⟩], .variable "x"]⟩, [⟨5⟩, ⟨6⟩]⟩ := rfl
  obtain ⟨⟨hcount, -⟩, hdangling, -⟩ := read_linear hread
  exact ⟨_, hread, hcount, hdangling⟩

end Dialect

end CallExpr

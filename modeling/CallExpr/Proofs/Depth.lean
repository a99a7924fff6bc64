import CallExpr.Proofs.Unfolding
import Mathlib.Data.Finset.Card
import Mathlib.Order.Monotone.Basic

/-!
# How deep a term can be

A token whose references end has a term with no more levels than the store has entries, and one more for a token
without an entry (`Store.Unfolds.within_size`). Each further level gives terms to more entries (`Store.reached`), or
to none; then no later level does (`Store.Settled.succ`). There are only so many entries.
-/

namespace CallExpr

namespace Store

variable {s : Store} {t : Token} {term : Term} {m n : Nat}

/-- One more level gives no term that is not there before. -/
def Settled (s : Store) (n : Nat) : Prop :=
  ∀ t term, s.unfoldWithin (n + 1) t = some term → s.unfoldWithin n t = some term

theorem Settled.succ (h : s.Settled n) : s.Settled (n + 1) := by
  intro t term hterm
  cases he : s.get? t with
  | none => rwa [unfoldWithin_of_none _ he] at hterm ⊢
  | some e =>
    rw [unfoldWithin_of_get? _ he] at hterm ⊢
    exact Entry.term?_mono (fun u _ => h u) hterm

/-- The positions of the entries whose terms have at most `n + 1` levels. With one level less, the tokens without an
entry would not have their terms. -/
def reached (s : Store) (n : Nat) : Finset Nat :=
  (Finset.range s.size).filter fun i => (s.unfoldWithin (n + 1) ⟨i⟩).isSome

theorem mem_reached (ht : t.index < s.size) : t.index ∈ s.reached n ↔ ∃ term, s.unfoldWithin (n + 1) t = some term := by
  rw [reached, Finset.mem_filter, Option.isSome_iff_exists]
  exact and_iff_right (Finset.mem_range.mpr ht)

theorem lt_size_of_mem_reached {i : Nat} (hi : i ∈ s.reached n) : i < s.size :=
  Finset.mem_range.mp (Finset.mem_filter.mp hi).1

theorem reached_subset (hle : m ≤ n) : s.reached m ⊆ s.reached n := by
  intro i hi
  have hlt := lt_size_of_mem_reached hi
  obtain ⟨term, hterm⟩ := (mem_reached (t := ⟨i⟩) hlt).mp hi
  exact (mem_reached (t := ⟨i⟩) hlt).mpr ⟨term, unfoldWithin_mono (Nat.succ_le_succ hle) hterm⟩

theorem card_reached_le (s : Store) (n : Nat) : (s.reached n).card ≤ s.size := by
  have hle := Finset.card_filter_le (Finset.range s.size) fun i => (s.unfoldWithin (n + 1) ⟨i⟩).isSome
  rwa [Finset.card_range] at hle

/-- A term is there as soon as its entry is reached. -/
theorem unfoldWithin_of_reached (hterm : s.unfoldWithin (n + 1) t = some term)
    (h : t.index ∈ s.reached n → t.index ∈ s.reached m) : s.unfoldWithin (m + 1) t = some term := by
  cases he : s.get? t with
  | none => rwa [unfoldWithin_of_none _ he] at hterm ⊢
  | some e =>
    have ht := lt_size_of_get? he
    obtain ⟨term', hterm'⟩ := (mem_reached ht).mp (h ((mem_reached ht).mpr ⟨term, hterm⟩))
    have hmax := unfoldWithin_mono (Nat.succ_le_succ (Nat.le_max_left m n)) hterm'
    rw [unfoldWithin_mono (Nat.succ_le_succ (Nat.le_max_right m n)) hterm] at hmax
    rw [hterm', hmax]

theorem settled_iff : s.Settled (n + 1) ↔ s.reached (n + 1) ⊆ s.reached n := by
  constructor
  · intro h i hi
    have hlt := lt_size_of_mem_reached hi
    obtain ⟨term, hterm⟩ := (mem_reached (t := ⟨i⟩) hlt).mp hi
    exact (mem_reached (t := ⟨i⟩) hlt).mpr ⟨term, h _ _ hterm⟩
  · exact fun h t term hterm => unfoldWithin_of_reached hterm fun hi => h hi

/-- A level that reaches no more entries is the last to matter. -/
theorem reached_stable (h : s.reached (n + 1) ⊆ s.reached n) : s.reached (n + 2) ⊆ s.reached (n + 1) :=
  settled_iff.mp (settled_iff.mpr h).succ

theorem reached_subset_of_card (hle : m ≤ n) (h : (s.reached m).card = (s.reached n).card) :
    s.reached n ⊆ s.reached m :=
  (Finset.eq_of_subset_of_card_le (reached_subset hle) h.ge).superset

/-- After as many levels as there are entries no more are reached. -/
theorem reached_subset_size (s : Store) (n : Nat) : s.reached n ⊆ s.reached s.size := by
  have hmono : Monotone fun n => (s.reached n).card := fun m n hle => Finset.card_le_card (reached_subset hle)
  have hstable : ∀ n, (s.reached n).card = (s.reached (n + 1)).card →
      (s.reached (n + 1)).card = (s.reached (n + 2)).card := by
    intro n hcard
    have hnext := reached_stable (reached_subset_of_card n.le_succ hcard)
    exact le_antisymm (hmono (n + 1).le_succ) (Finset.card_le_card hnext)
  have hcard := Nat.stabilises_of_monotone hmono s.card_reached_le hstable (Nat.le_max_right n s.size)
  calc s.reached n ⊆ s.reached (max n s.size) := reached_subset (Nat.le_max_left n s.size)
    _ ⊆ s.reached s.size := reached_subset_of_card (Nat.le_max_right n s.size) hcard.symm

/-- **No term is deeper than its store.** The one level more is for tokens without an entry. -/
theorem Unfolds.within_size (h : s.Unfolds t term) : s.unfoldWithin (s.size + 1) t = some term := by
  obtain ⟨depth, h⟩ := h
  exact unfoldWithin_of_reached (unfoldWithin_mono depth.le_succ h) fun hi => reached_subset_size s depth hi

/-- A token has one term. -/
theorem Unfolds.unique {term' : Term} (h : s.Unfolds t term) (h' : s.Unfolds t term') : term = term' :=
  Option.some.inj (h.within_size.symm.trans h'.within_size)

end Store

end CallExpr

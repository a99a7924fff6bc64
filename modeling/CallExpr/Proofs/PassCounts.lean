import CallExpr.Proofs.Passes
import CallExpr.Proofs.Rounds
import CallExpr.Proofs.Traces

/-!
# What the passes report

* `Stage.pass?`: the number of a pass and how many calls it found.
* `Store.countP_newTokens`: the calls among new tokens are those among new entries.
* `Dialect.exists_entries_of_resolve`: a pass stores as many calls as it found.
* `Dialect.filterMap_trace_passes`: the passes report the calls that each round issues.
-/

namespace CallExpr

/-- The number of a pass and its calls. -/
def Stage.pass? : Stage → Option (Nat × Nat)
  | pass number calls => some (number, calls)
  | _ => none

def Entry.isCall : Entry → Bool
  | call _ _ => true
  | _ => false

section Traces

variable {ω ω' ε α β : Type} {p : ω → Option ω'} {x : Traced ω ε α} {f : α → Traced ω ε β}

/-- A computation after which no event is seen. -/
theorem Traced.filterMap_trace_bind_left (hf : ∀ a, (f a).trace.filterMap p = []) :
    (x >>= f).trace.filterMap p = x.trace.filterMap p := by
  cases h : x.result with
  | error e => rw [bind_of_error h]
  | ok a => rw [bind_of_ok h, List.filterMap_append, hf a, List.append_nil]

/-- Computations of which no event is seen, one after the other. -/
theorem Traced.filterMap_trace_bind (hx : x.trace.filterMap p = []) (hf : ∀ a, (f a).trace.filterMap p = []) :
    (x >>= f).trace.filterMap p = [] := by
  rw [filterMap_trace_bind_left hf, hx]

end Traces

/-! ## New tokens and new entries -/

namespace Store

variable {S s s' : Store} {more : List Entry}

theorem isCall_eq (s : Store) (u : Token) : s.isCall u = (s.get? u).any Entry.isCall := by
  rw [isCall]
  split
  · next h => rw [h]; rfl
  · next h =>
    rcases hu : s.get? u with _ | ⟨_⟩ | ⟨_⟩ | ⟨name, arguments⟩
    · rfl
    · rfl
    · rfl
    · exact absurd hu (h name arguments)

/-- The entries of new tokens. -/
theorem map_get?_newTokens (hmore : s'.toList = s.toList ++ more) (hgrows : s'.Grows S) :
    (s.newTokens s').map S.get? = more.map some := by
  have hsize : s'.size - s.size = more.length := by simp [size_eq_length, hmore]
  rw [newTokens, hsize, List.map_map]
  refine List.ext_getElem (by simp) fun i hi hi' => ?_
  have hi : i < more.length := by simpa using hi'
  have hget : S.get? ⟨s.size + i⟩ = some more[i] := by
    rw [hgrows.get? (show s.size + i < s'.size by omega), get?_eq_toList, hmore, size_eq_length,
      List.getElem?_append_right (Nat.le_add_right _ _), Nat.add_sub_cancel_left, List.getElem?_eq_getElem hi]
  simpa using hget

/-- There are as many calls among the new tokens as among the new entries. -/
theorem countP_newTokens (hmore : s'.toList = s.toList ++ more) (hgrows : s'.Grows S) :
    (s.newTokens s').countP S.isCall = more.countP Entry.isCall := by
  have hcalls : S.isCall = (Option.any Entry.isCall) ∘ S.get? := funext S.isCall_eq
  rw [hcalls, ← List.countP_map, map_get?_newTokens hmore hgrows, List.countP_map]
  rfl

/-- Storing words adds no calls. -/
theorem exists_entries_insertTerms (s : Store) (arguments : List (Argument Token)) :
    ∃ more, (s.insertTerms (openTerms arguments)).1.toList = s.toList ++ more ∧ more.countP Entry.isCall = 0 := by
  rw [← insertWords_eq]
  induction arguments generalizing s with
  | nil => exact ⟨[], (List.append_nil _).symm, rfl⟩
  | cons a arguments ih =>
    cases a with
    | token t => exact ih s
    | word w =>
      obtain ⟨more, hmore, hcalls⟩ := ih (s.insert (.variable w)).1
      refine ⟨.variable w :: more, ?_, by rw [List.countP_cons_of_neg Bool.false_ne_true, hcalls]⟩
      rw [insertWords, hmore, toList_insert, List.append_assoc, List.singleton_append]

end Store

namespace Dialect

variable {d : Dialect} {S s s' : Store} {items items' : List (Item Token)} {chunks : List (Chunk Token)}
  {terms : List Term} {passesLeft done : Nat}

/-! ## One pass -/

/-- Within a pass no pass is reported. -/
theorem filterMap_trace_resolve (d : Dialect) (s : Store) (chunks : List (Chunk Token)) :
    (d.resolve s chunks).trace.filterMap Stage.pass? = [] := by
  induction chunks generalizing s with
  | nil => rfl
  | cons chunk chunks ih =>
    cases chunk with
    | item x => exact Traced.filterMap_trace_bind (ih s) fun _ => rfl
    | call name body =>
      refine Traced.filterMap_trace_bind rfl fun _ => Traced.filterMap_trace_bind rfl fun _ => ?_
      exact Traced.filterMap_trace_bind (ih _) fun _ => rfl

/-- **A pass stores as many calls as it found.** -/
theorem exists_entries_of_resolve (h : (d.resolve s chunks).result = .ok (s', items')) :
    ∃ more, s'.toList = s.toList ++ more ∧ more.countP Entry.isCall = chunks.countP Chunk.isCall := by
  induction chunks generalizing s items' with
  | nil =>
    cases h
    exact ⟨[], (List.append_nil _).symm, rfl⟩
  | cons chunk chunks ih =>
    cases chunk with
    | item x =>
      obtain ⟨rest, hrest, rfl⟩ := exists_of_resolve_item h
      obtain ⟨more, hmore, hcalls⟩ := ih hrest
      exact ⟨more, hmore, by rw [hcalls, List.countP_cons_of_neg Bool.false_ne_true]⟩
    | call name body =>
      obtain ⟨arguments, rest, -, hrest, rfl⟩ := exists_of_resolve_call h
      obtain ⟨more, hmore, hcalls⟩ := ih hrest
      obtain ⟨words, hwords, hnone⟩ := s.exists_entries_insertTerms arguments
      rw [Store.insertTerm, Store.toList_insert, hwords] at hmore
      refine ⟨words ++ .call (.ofList name) (s.insertTerms (openTerms arguments)).2 :: more, ?_, ?_⟩
      · rw [hmore, List.append_assoc, List.append_assoc, List.singleton_append]
      · rw [List.countP_append, hnone, List.countP_cons_of_pos rfl, hcalls, List.countP_cons_of_pos rfl, Nat.zero_add]

/-! ## All passes -/

theorem trace_passes_of_calls (hcalls : (Chunk.scan items).countP Chunk.isCall ≠ 0) :
    (d.passes (passesLeft + 1) done s items).trace.filterMap Stage.pass? =
      (done + 1, (Chunk.scan items).countP Chunk.isCall) :: match (d.resolve s (Chunk.scan items)).result with
        | .error _ => []
        | .ok r => (d.passes passesLeft (done + 1) r.1 r.2).trace.filterMap Stage.pass? := by
  rw [passes]
  dsimp only
  split
  · next h => exact absurd h hcalls
  · rw [Traced.bind_of_ok (a := ()) rfl]
    cases hresolve : (d.resolve s (Chunk.scan items)).result with
    | error e =>
      rw [Traced.bind_of_error hresolve, List.filterMap_append, filterMap_trace_resolve]
      rfl
    | ok r =>
      rw [Traced.bind_of_ok hresolve, List.filterMap_append, List.filterMap_append, filterMap_trace_resolve]
      rfl

/-- **The passes report the calls that each round issues.** -/
theorem filterMap_trace_passes (h : readTerms d.delimiter (openItems items) = some terms)
    (hlt : Term.heights terms < passesLeft) (hgrows : (s.settle (Term.heights terms) terms).1.Grows S) :
    (d.passes passesLeft done s items).trace.filterMap Stage.pass? =
      (Store.batches (Term.heights terms) s terms).mapIdx fun i batch => (done + i + 1, batch.countP S.isCall) := by
  induction passesLeft generalizing done s items terms with
  | zero => exact absurd hlt (Nat.not_lt_zero _)
  | succ passesLeft ih =>
    by_cases hcalls : (Chunk.scan items).countP Chunk.isCall = 0
    · obtain ⟨arguments, -, rfl⟩ := (readTerms_eq_some_iff_of_no_calls hcalls).mp h
      rw [Argument.height_openTerms, passes]
      simp only [hcalls]
      rfl
    · obtain ⟨items', hresolve, hafter⟩ := exists_resolve (s := s) h
      obtain ⟨more, hmore, hcount⟩ := exists_entries_of_resolve hresolve
      have hne := heights_ne_zero_of_calls hcalls h
      have hround := Store.heights_placeAll s terms
      have hheights : Term.heights terms = Term.heights (s.placeAll Term.isInnermost terms).2 + 1 := by omega
      rw [hheights, Store.settle] at hgrows
      have hnew := Store.countP_newTokens hmore ((Store.grows_settle _ _ _).trans hgrows)
      rw [trace_passes_of_calls hcalls, hresolve]
      dsimp only
      rw [ih hafter (by omega) hgrows, hheights, Store.batches, List.mapIdx_cons,
        hnew, hcount]
      refine congrArg (_ :: ·) (congrArg₂ List.mapIdx (funext fun i => funext fun batch => ?_) rfl)
      rw [show done + 1 + i + 1 = done + (i + 1) + 1 by omega]

end Dialect

end CallExpr

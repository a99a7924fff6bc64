import CallExpr.Eval.Meaning
import Mathlib.Data.List.Forall2

/-!
# Computations with their traces

* `Traced.filterTrace`: the same computation, of which only some events are seen. It goes through what computations
  are made of (`Traced.filterTrace_bind`, `Traced.filterTrace_observe`, `Traced.filterTrace_gather`).
* `Traced.mapM_of_ok`, `Traced.mapM_of_error`: computations one after the other, if all have a value, and up to the
  first that has none. There is no third case (`Traced.values_or_error`).
* `Traced.mapM_eq_ok_iff`: the values of all computations.
-/

namespace CallExpr

namespace Traced

variable {ω ω' ε α β : Type}

section Filter

variable (p : ω → Option ω')

/-- The same computation, of which only some events are seen. -/
def filterTrace (x : Traced ω ε α) : Traced ω' ε α :=
  ⟨x.result, x.trace.filterMap p⟩

@[simp]
theorem filterTrace_pure (a : α) : (pure a : Traced ω ε α).filterTrace p = pure a := rfl

@[simp]
theorem filterTrace_fail (e : ε) : (fail e : Traced ω ε α).filterTrace p = fail e := rfl

@[simp]
theorem filterTrace_ofExcept (r : Except ε α) : (ofExcept r : Traced ω ε α).filterTrace p = ofExcept r := rfl

theorem filterTrace_bind (x : Traced ω ε α) (f : α → Traced ω ε β) :
    (x >>= f).filterTrace p = x.filterTrace p >>= fun a => (f a).filterTrace p := by
  cases h : x.result with
  | error e =>
    have h' : (x.filterTrace p).result = .error e := h
    rw [bind_of_error h, bind_of_error h']
    rfl
  | ok a =>
    have h' : (x.filterTrace p).result = .ok a := h
    rw [bind_of_ok h, bind_of_ok h', filterTrace, List.filterMap_append]
    rfl

theorem filterTrace_observe (x : Traced ω ε α) (f : Except ε α → Traced ω ε β) :
    (x.observe f).filterTrace p = (x.filterTrace p).observe fun r => (f r).filterTrace p := by
  rw [observe, filterTrace, List.filterMap_append]
  rfl

theorem filterTrace_mapM (f : α → Traced ω ε β) (l : List α) :
    (l.mapM f).filterTrace p = l.mapM fun a => (f a).filterTrace p := by
  induction l with
  | nil => rfl
  | cons a l ih => simp only [List.mapM_cons, filterTrace_bind, filterTrace_pure, ih]

theorem filterTrace_gather (strategy : Strategy) (f : α → Traced ω ε Value) (l : List α) :
    (strategy.gather f l).filterTrace p = strategy.gather (fun a => (f a).filterTrace p) l := by
  cases strategy with
  | eager => exact filterTrace_mapM p f l
  | lazy => rfl

end Filter

/-- Going on with the result only if it is a value is the usual sequencing. -/
theorem observe_eq_bind (x : Traced ω ε α) {f : Except ε α → Traced ω ε β} (h : ∀ e, f (.error e) = fail e) :
    x.observe f = x >>= fun a => f (.ok a) := by
  cases hx : x.result with
  | error e => rw [bind_of_error hx, observe, hx, h, fail, List.append_nil]
  | ok a => rw [bind_of_ok hx, observe, hx]

/-- Looking at the result and passing it on changes nothing. -/
theorem observe_ofExcept (x : Traced ω ε α) : x.observe ofExcept = x := by
  rw [observe, ofExcept, List.append_nil]

section Sequence

variable {f : α → Traced ω ε β} {l : List α} {a : α} {values : List β} {e : ε}

/-- All computations have a value. -/
theorem mapM_of_ok (h : l.map (fun a => (f a).result) = values.map .ok) :
    l.mapM f = ⟨.ok values, l.flatMap fun a => (f a).trace⟩ := by
  induction l generalizing values with
  | nil =>
    obtain rfl := List.map_eq_nil_iff.mp h.symm
    rfl
  | cons a l ih =>
    obtain ⟨b, values, rfl, hb, h⟩ := List.map_eq_cons_iff.mp h.symm
    rw [List.mapM_cons, bind_of_ok hb.symm, ih h.symm, bind_of_ok rfl]
    simp

/-- The computations before the first error have a value, and those after it are not looked at. -/
theorem mapM_of_error (h : l.map (fun a => (f a).result) = values.map .ok) (he : (f a).result = .error e)
    (rest : List α) : (l ++ a :: rest).mapM f = ⟨.error e, (l ++ [a]).flatMap fun a => (f a).trace⟩ := by
  rw [List.mapM_append, bind_of_ok (a := values) (by rw [mapM_of_ok h]), mapM_of_ok h, List.mapM_cons,
    bind_of_error (e := e) (by rw [bind_of_error he]), bind_of_error he]
  simp

/-- Either all computations have a value, or there is a first one that has none. -/
theorem values_or_error (f : α → Traced ω ε β) (l : List α) :
    (∃ values : List β, l.map (fun a => (f a).result) = values.map .ok) ∨
      ∃ (before : List α) (values : List β) (a : α) (e : ε) (after : List α), l = before ++ a :: after ∧
        before.map (fun a => (f a).result) = values.map .ok ∧ (f a).result = .error e := by
  induction l with
  | nil => exact Or.inl ⟨[], rfl⟩
  | cons a l ih =>
    cases ha : (f a).result with
    | error e => exact Or.inr ⟨[], [], a, e, l, rfl, rfl, ha⟩
    | ok b =>
      rcases ih with ⟨values, h⟩ | ⟨before, values, a', e, after, rfl, h, he⟩
      · exact Or.inl ⟨b :: values, by rw [List.map_cons, List.map_cons, ha, h]⟩
      · exact Or.inr ⟨a :: before, b :: values, a', e, after, rfl, by rw [List.map_cons, List.map_cons, ha, h], he⟩

/-- All computations have a value if and only if there is a value for each of them. -/
theorem mapM_eq_ok_iff : (l.mapM f).result = .ok values ↔ List.Forall₂ (fun a b => (f a).result = .ok b) l values := by
  induction l generalizing values with
  | nil =>
    rw [List.mapM_nil, List.forall₂_nil_left_iff]
    exact ⟨fun h => (Except.ok.inj h).symm, fun h => congrArg Except.ok h.symm⟩
  | cons a l ih =>
    simp only [List.mapM_cons, bind_eq_ok_iff, List.forall₂_cons_left_iff, ih]
    constructor
    · rintro ⟨b, hb, bs, hbs, h⟩
      exact ⟨b, bs, hb, hbs, (Except.ok.inj h).symm⟩
    · rintro ⟨b, bs, hb, hbs, rfl⟩
      exact ⟨b, hb, bs, hbs, rfl⟩

end Sequence

end Traced

/-- Only the arguments of the call are evaluated. -/
theorem Strategy.gather_congr {ω ε α : Type} (strategy : Strategy) {f g : α → Traced ω ε Value} {l : List α}
    (h : ∀ a ∈ l, f a = g a) : strategy.gather f l = strategy.gather g l := by
  cases strategy with
  | lazy => rfl
  | eager =>
    simp only [gather]
    induction l with
    | nil => rfl
    | cons a l ih =>
      obtain ⟨ha, h⟩ := List.forall_mem_cons.mp h
      rw [List.mapM_cons, List.mapM_cons, ha, ih h]

end CallExpr

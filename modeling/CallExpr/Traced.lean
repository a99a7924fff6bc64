/-!
# Results with a trace

`Traced ω ε α`: a result or an error, with the events that led to it. The events before an error are kept.
-/

namespace CallExpr

/-- A result or an error, with the events that led to it. -/
@[ext]
structure Traced (ω ε α : Type) where
  result : Except ε α
  trace : List ω

namespace Traced

variable {ω ε α β : Type}

/-- Goes on with the value; an error ends the computation. -/
def andThen (x : Traced ω ε α) (f : α → Traced ω ε β) : Traced ω ε β :=
  match x.result with
  | .ok a => ⟨(f a).result, x.trace ++ (f a).trace⟩
  | .error e => ⟨.error e, x.trace⟩

instance : Monad (Traced ω ε) where
  pure a := ⟨.ok a, []⟩
  bind := andThen

/-- Ends the computation. -/
def fail (e : ε) : Traced ω ε α :=
  ⟨.error e, []⟩

/-- A result without events. -/
def ofExcept (r : Except ε α) : Traced ω ε α :=
  ⟨r, []⟩

/-- Adds one event. -/
def emit (event : ω) : Traced ω ε Unit :=
  ⟨.ok (), [event]⟩

/-- The same computation, with other events. -/
def mapTrace {ω' : Type} (f : ω → ω') (x : Traced ω ε α) : Traced ω' ε α :=
  ⟨x.result, x.trace.map f⟩

/-- The same computation, with another error. -/
def mapError {ε' : Type} (f : ε → ε') (x : Traced ω ε α) : Traced ω ε' α :=
  ⟨x.result.mapError f, x.trace⟩

/-- The computation goes on with the result of `x`, also if that is an error. -/
def observe (x : Traced ω ε α) (f : Except ε α → Traced ω ε β) : Traced ω ε β :=
  ⟨(f x.result).result, x.trace ++ (f x.result).trace⟩

@[simp]
theorem pure_result (a : α) : (pure a : Traced ω ε α).result = .ok a := rfl

@[simp]
theorem pure_trace (a : α) : (pure a : Traced ω ε α).trace = [] := rfl

theorem bind_of_ok {x : Traced ω ε α} {a : α} (h : x.result = .ok a) (f : α → Traced ω ε β) :
    x >>= f = ⟨(f a).result, x.trace ++ (f a).trace⟩ := by
  simp [bind, andThen, h]

theorem bind_of_error {x : Traced ω ε α} {e : ε} (h : x.result = .error e) (f : α → Traced ω ε β) :
    x >>= f = ⟨.error e, x.trace⟩ := by
  simp [bind, andThen, h]

theorem bind_eq_ok_iff {x : Traced ω ε α} {f : α → Traced ω ε β} {b : β} :
    (x >>= f).result = .ok b ↔ ∃ a, x.result = .ok a ∧ (f a).result = .ok b := by
  cases h : x.result with
  | error e => simp [bind_of_error h]
  | ok a => simp [bind_of_ok h]

instance : LawfulMonad (Traced ω ε) :=
  LawfulMonad.mk' _
    (fun x => by
      rcases x with ⟨_ | a, t⟩
      · rfl
      · simp [Functor.map, andThen])
    (fun a f => by simp [bind, andThen, pure])
    (fun x f g => by
      rcases x with ⟨_ | a, t⟩
      · rfl
      · simp only [bind, andThen]
        rcases (f a) with ⟨_ | b, u⟩ <;> simp)

end Traced

end CallExpr

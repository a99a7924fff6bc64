import CallExpr.Proofs.Traces
import CallExpr.Eval.Stock

/-!
# Functions that see values only

* `Script.Blind.filterTrace_run`: what a blind script does follows from what its arguments do.
* `Builtin.blind_behaviour`, `Stock.blind_behaviour`: the builtin functions are blind, and so are the stock functions
  that do not quote their arguments.
* `Registry.get?_registerAll`: a registry has the functions that were put there, and no others.
-/

namespace CallExpr

/-! ## Events -/

namespace EvalEvent

theorem filterTrace_dispatched (t : Token) (name : String) (values : Nat) :
    (Traced.emit (dispatched t name values) : Traced EvalEvent EvalError Unit).filterTrace dispatch? =
      .emit (name, values) := rfl

theorem filterTrace_noted (report : Note) :
    (Traced.emit (noted report) : Traced EvalEvent EvalError Unit).filterTrace dispatch? = pure () := rfl

end EvalEvent

/-! ## Scripts -/

namespace Script

variable {m n : Nat}

/-- A blind script does as it says, given what its arguments do. -/
theorem Blind.filterTrace_run {script : Script n} (h : script.Blind) (inspect : Fin n → Token × Option Entry)
    (evaluate : Fin n → Traced EvalEvent EvalError Value) :
    (script.run inspect evaluate).filterTrace EvalEvent.dispatch? =
      script.meaning fun i => (evaluate i).filterTrace EvalEvent.dispatch? := by
  induction script with
  | done result => rfl
  | note report next ih =>
    rw [run, Traced.filterTrace_bind, EvalEvent.filterTrace_noted, pure_bind, ih h, meaning]
  | inspect i next => exact h.elim
  | evaluate i next ih =>
    rw [run, Traced.filterTrace_observe, meaning]
    simp only [ih _ (h _)]

/-- The number of arguments may be said in another way. -/
theorem meaning_cast (run : (n : Nat) → Script n) (h : m = n) (f : Fin n → Traced (String × Nat) EvalError Value) :
    (run m).meaning (fun i => f (i.cast h)) = (run n).meaning f := by
  subst h
  rfl

end Script

/-! ## Functions -/

namespace Builtin

theorem blind_chooseScript (name : String) (n : Nat) : (chooseScript name n).Blind := by
  unfold chooseScript
  split
  · intro r
    cases r with
    | error e => trivial
    | ok condition => exact fun _ => trivial
  · trivial

theorem blind_behaviour (b : Builtin) : b.behaviour.Blind := by
  intro name values n
  cases b with
  | choose => exact blind_chooseScript name n
  | add | mul | sub | div | concat | eq => trivial

end Builtin

namespace Stock

variable {n : Nat}

theorem blind_nthScript (index n : Nat) : (nthScript index n).Blind := by
  unfold nthScript
  split
  · exact fun _ => trivial
  · trivial

theorem blind_attemptScript (n : Nat) : (attemptScript n).Blind := by
  unfold attemptScript
  split
  · trivial
  · intro r
    cases r <;> trivial
  · intro r
    cases r with
    | ok value => trivial
    | error e => exact fun _ => trivial

theorem blind_joinScript (seen : String) (is : List (Fin n)) : (joinScript seen is).Blind := by
  induction is generalizing seen with
  | nil => trivial
  | cons i is ih =>
    intro r
    cases r with
    | ok value => exact ih _
    | error e => trivial

/-- Only a function that quotes its arguments looks at them. -/
theorem blind_behaviour {x : Stock} (h : x ≠ .quote) : x.behaviour.Blind := by
  intro name values n
  cases x with
  | quote => exact absurd rfl h
  | nth index => exact blind_nthScript index n
  | attempt => exact blind_attemptScript n
  | reverse => exact blind_joinScript _ _
  | builtin b => exact b.blind_behaviour name values n
  | const | count | name | echo | fail | log | types | join => trivial

end Stock

/-! ## Registries -/

namespace Registry

variable {r : Registry} {name : String} {c : Callable}

theorem get?_register {other : String} {callable : Callable} (h : (r.register name callable).1.get? other = some c) :
    c = callable ∨ r.get? other = some c := by
  by_cases hname : other = name
  · rw [hname, register, get?, Named.get?_put_self] at h
    exact Or.inl (Option.some.inj h).symm
  · rw [register, get?, Named.get?_put_of_ne hname] at h
    exact Or.inr h

/-- A registry has the functions that were put there, and no others. -/
theorem get?_registerAll {pairs : List (String × Callable)} (h : (r.registerAll pairs).1.get? name = some c) :
    c ∈ pairs.map Prod.snd ∨ r.get? name = some c := by
  induction pairs generalizing r with
  | nil => exact Or.inr h
  | cons pair pairs ih =>
    rcases ih h with hmem | hget
    · exact Or.inl (List.mem_cons_of_mem _ hmem)
    · rcases get?_register hget with rfl | hget
      · exact Or.inl List.mem_cons_self
      · exact Or.inr hget

theorem builtin_of_get?_withBuiltins (h : withBuiltins.get? name = some c) : ∃ b : Builtin, c = b.callable := by
  rcases get?_registerAll h with hmem | hget
  · rw [List.map_map] at hmem
    obtain ⟨b, -, hb⟩ := List.mem_map.mp hmem
    exact ⟨b, hb.symm⟩
  · cases hget

theorem behaviour_of_get?_withBuiltins (h : withBuiltins.get? name = some c) :
    ∃ b : Builtin, c.behaviour = b.behaviour := by
  obtain ⟨b, rfl⟩ := builtin_of_get?_withBuiltins h
  exact ⟨b, rfl⟩

/-- What all builtin functions have in common with the others of a registry, all of its functions have. -/
theorem forall_of_builtin_or {P : Behaviour → Prop} (hbuiltin : ∀ b : Builtin, P b.behaviour)
    (h : ∀ name c, r.get? name = some c → (∃ b : Builtin, c.behaviour = b.behaviour) ∨ P c.behaviour) :
    ∀ name c, r.get? name = some c → P c.behaviour := by
  intro name c hc
  rcases h name c hc with ⟨b, hb⟩ | hother
  · exact hb ▸ hbuiltin b
  · exact hother

end Registry

end CallExpr

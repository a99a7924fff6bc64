import CallExpr.Proofs.ErrorSources

/-!
# Larger environments

* `Environment.Extends`: an environment with more functions and variables. So it is after a registration under a new
  name (`Environment.extends_register`) and after setting a variable that had no value (`Environment.extends_set`).
* `Traced.Settles`: a computation that is the same as another, unless this one ends with an error of a kind. It goes
  through what computations are made of (`Traced.Settles.bind`, `Traced.Settles.observe`, `Traced.Settles.mapM`).
* `Script.Strict`: a function that passes on the error of an argument. The builtin functions do
  (`Builtin.strict_behaviour`).
* `Environment.settles_evaluateWithin`: by induction on the nesting, an evaluation is the same in the larger
  environment, unless it ends with an unresolved name.
* `Environment.evaluate_of_extends`: what is settled stays as it is.
-/

namespace CallExpr

/-- The error is that of a name that stands for nothing. -/
def EvalError.IsUnresolved (e : EvalError) : Prop :=
  (∃ name, e = .unbound name) ∨ ∃ name, e = .undefined name

/-! ## Computations up to errors -/

namespace Traced

variable {ω ε α β : Type} {P : ε → Prop} {x y : Traced ω ε α}

/-- Unless `x` ends with an error of the kind, `y` is the same. -/
def Settles (P : ε → Prop) (x y : Traced ω ε α) : Prop :=
  x.Avoids P → y = x

theorem Settles.refl (x : Traced ω ε α) : x.Settles P x := fun _ => rfl

theorem settles_fail {e : ε} (h : P e) (y : Traced ω ε α) : (fail e).Settles P y :=
  fun havoids => absurd h (havoids e rfl)

theorem Avoids.of_bind {f : α → Traced ω ε β} (h : (x >>= f).Avoids P) : x.Avoids P := by
  intro e he
  apply h e
  rw [bind_of_error he]

theorem Settles.bind {f g : α → Traced ω ε β} (h : x.Settles P y) (hf : ∀ a, (f a).Settles P (g a)) :
    (x >>= f).Settles P (y >>= g) := by
  intro havoids
  rw [h havoids.of_bind]
  cases hx : x.result with
  | error e => rw [bind_of_error hx, bind_of_error hx]
  | ok a =>
    have hfa : (f a).Avoids P := by
      intro e he
      apply havoids e
      rw [bind_of_ok hx, he]
    rw [bind_of_ok hx, bind_of_ok hx, hf a hfa]

/-- If the result of `x` is looked at, then an error of the kind has to be passed on. -/
theorem Settles.observe {f g : Except ε α → Traced ω ε β} (h : x.Settles P y) (hf : ∀ r, (f r).Settles P (g r))
    (hpass : ∀ e, (f (.error e)).result = .error e) : (x.observe f).Settles P (y.observe g) := by
  intro havoids
  -- An error of `x` would be the error of the whole.
  have hx : x.Avoids P := by
    intro e he
    apply havoids e
    rw [Traced.observe, he, hpass]
  rw [h hx, Traced.observe, Traced.observe, hf x.result havoids]

theorem Settles.mapM {f g : α → Traced ω ε β} {l : List α} (h : ∀ a ∈ l, (f a).Settles P (g a)) :
    (l.mapM f).Settles P (l.mapM g) := by
  induction l with
  | nil => exact .refl _
  | cons a l ih =>
    obtain ⟨ha, h⟩ := List.forall_mem_cons.mp h
    rw [List.mapM_cons, List.mapM_cons]
    exact ha.bind fun b => (ih h).bind fun bs => .refl _

end Traced

theorem Strategy.settles_gather {ω ε α : Type} {P : ε → Prop} (strategy : Strategy) {f g : α → Traced ω ε Value}
    {l : List α} (h : ∀ a ∈ l, (f a).Settles P (g a)) : (strategy.gather f l).Settles P (strategy.gather g l) := by
  cases strategy with
  | eager => exact .mapM h
  | lazy => exact .refl _

/-! ## Functions that pass errors on -/

/-- An argument without a value ends the script with its error. -/
def Script.Strict {n : Nat} : Script n → Prop
  | .done _ => True
  | .note _ next => next.Strict
  | .inspect _ next => ∀ t e, (next t e).Strict
  | .evaluate _ next => (∀ e, next (.error e) = .done (.error e)) ∧ ∀ value, (next (.ok value)).Strict

def Behaviour.Strict (b : Behaviour) : Prop :=
  ∀ name values n, (b.run name values n).Strict

theorem Script.Strict.settles_run {P : EvalError → Prop} {n : Nat} {script : Script n} (h : script.Strict)
    (inspect : Fin n → Token × Option Entry) {evaluate evaluate' : Fin n → Traced EvalEvent EvalError Value}
    (hevaluate : ∀ i, (evaluate i).Settles P (evaluate' i)) :
    (script.run inspect evaluate).Settles P (script.run inspect evaluate') := by
  induction script with
  | done result => exact .refl _
  | note report next ih => exact Traced.Settles.bind (.refl _) fun _ => ih h
  | inspect i next ih => exact ih _ _ (h _ _)
  | evaluate i next ih =>
    obtain ⟨hpass, hvalue⟩ := h
    apply (hevaluate i).observe
    · intro r
      apply ih
      cases r with
      | error e =>
        rw [hpass]
        trivial
      | ok value => exact hvalue value
    · intro e
      rw [hpass]
      rfl

theorem Builtin.strict_behaviour (b : Builtin) : b.behaviour.Strict := by
  intro name values n
  cases b with
  | add | mul | sub | div | concat | eq => trivial
  | choose =>
    unfold behaviour chooseScript
    dsimp only
    split
    · exact ⟨fun e => rfl, fun value => ⟨fun e => rfl, fun value => trivial⟩⟩
    · trivial

/-! ## Environments -/

namespace Environment

/-- What stands for something in `env` stands for the same in `env'`. -/
structure Extends (env env' : Environment) : Prop where
  functions : ∀ name c, env.registry.get? name = some c →
    ∃ c', env'.registry.get? name = some c' ∧ c'.behaviour = c.behaviour
  values : ∀ name value, env.resolve name = some value → env'.resolve name = some value

variable {env env' env'' : Environment} {s : Store} {f : Forest}

theorem Extends.trans (h : env.Extends env') (h' : env'.Extends env'') : env.Extends env'' where
  functions name c hc := by
    obtain ⟨c', hc', hbehaviour⟩ := h.functions name c hc
    obtain ⟨c'', hc'', hbehaviour'⟩ := h'.functions name c' hc'
    exact ⟨c'', hc'', hbehaviour'.trans hbehaviour⟩
  values name value hvalue := h'.values name value (h.values name value hvalue)

/-- A registration under a new name. -/
theorem extends_register {r : Registry} {name : String} (h : r.get? name = none) (c : Callable) (resolve : Variables) :
    Extends ⟨r, resolve⟩ ⟨(r.register name c).1, resolve⟩ where
  functions other c' hc' := by
    have hne : other ≠ name := by
      rintro rfl
      cases h.symm.trans hc'
    exact ⟨c', (Named.get?_put_of_ne hne r.callables c).trans hc', rfl⟩
  values _ _ hvalue := hvalue

/-- A variable that had no value. -/
theorem extends_set {b : Bindings} {name : String} (h : b.resolve name = none) (value : Value) (r : Registry) :
    Extends ⟨r, b.resolve⟩ ⟨r, (b.set name value).resolve⟩ where
  functions _ c hc := ⟨c, hc, rfl⟩
  values other value' hvalue := by
    have hne : other ≠ name := by
      rintro rfl
      cases h.symm.trans hvalue
    have hget : (b.set name value).values.get? other = b.values.get? other :=
      Named.get?_put_of_ne hne b.values value
    dsimp only [Bindings.resolve] at hvalue ⊢
    rwa [hget]

/-- **A larger environment does the same**, unless a name is unresolved. -/
theorem settles_evaluateWithin (h : env.Extends env')
    (hstrict : ∀ name c, env.registry.get? name = some c → c.behaviour.Strict) (s : Store) (depth : Nat) (t : Token) :
    (env.evaluateWithin s depth t).Settles EvalError.IsUnresolved (env'.evaluateWithin s depth t) := by
  induction depth generalizing t with
  | zero => exact .refl _
  | succ depth ih =>
    rw [evaluateWithin, evaluateWithin]
    cases s.get? t with
    | none => exact .refl _
    | some e =>
      cases e with
      | literal content => exact .refl _
      | «variable» name =>
        dsimp only
        cases hvalue : env.resolve name with
        | none => exact Traced.settles_fail (.inl ⟨name, rfl⟩) _
        | some value =>
          rw [h.values name value hvalue]
          exact .refl _
      | call name arguments =>
        dsimp only
        cases hc : env.registry.get? name with
        | none => exact Traced.settles_fail (.inr ⟨name, rfl⟩) _
        | some c =>
          -- The same function runs, in both environments on arguments that are settled one level below.
          obtain ⟨c', hc', hbehaviour⟩ := h.functions name c hc
          rw [hc']
          dsimp only
          rw [hbehaviour]
          apply (c.behaviour.strategy.settles_gather fun u _ => ih u).bind
          intro values
          apply Traced.Settles.bind (.refl _)
          exact fun _ => (hstrict name c hc name values _).settles_run _ fun i => ih _

theorem settles_evaluateAll (h : env.Extends env')
    (hstrict : ∀ name c, env.registry.get? name = some c → c.behaviour.Strict) (f : Forest) :
    (env.evaluateAll f).Settles EvalError.IsUnresolved (env'.evaluateAll f) :=
  .mapM fun root _ => settles_evaluateWithin h hstrict f.store _ root

theorem settles_evaluate (h : env.Extends env')
    (hstrict : ∀ name c, env.registry.get? name = some c → c.behaviour.Strict) (f : Forest) :
    (env.evaluate f).Settles EvalError.IsUnresolved (env'.evaluate f) := by
  unfold evaluate
  split
  · next root _ => exact settles_evaluateWithin h hstrict f.store _ root
  · exact .refl _

theorem avoids_isUnresolved {α : Type} {x : Traced EvalEvent EvalError α}
    (hunbound : ∀ name, x.result ≠ .error (.unbound name)) (hundefined : ∀ name, x.result ≠ .error (.undefined name)) :
    x.Avoids EvalError.IsUnresolved := by
  rintro e he (⟨name, rfl⟩ | ⟨name, rfl⟩)
  · exact hunbound name he
  · exact hundefined name he

/-- **What is settled stays as it is.** The functions of an environment are builtin, or pass on the errors of their
arguments. If a forest is evaluated to a value, or to an error other than that of an unresolved name, then a larger
environment evaluates it to the same, with the same events: one expression, and all of them. -/
theorem evaluate_of_extends (env env' : Environment)
    (hregistry : ∀ name c, env.registry.get? name = some c →
      (∃ b : Builtin, c.behaviour = b.behaviour) ∨ c.behaviour.Strict)
    (h : env.Extends env') (f : Forest) :
    ((∀ name, (env.evaluate f).result ≠ .error (.unbound name)) →
      (∀ name, (env.evaluate f).result ≠ .error (.undefined name)) → env'.evaluate f = env.evaluate f) ∧
    ((∀ name, (env.evaluateAll f).result ≠ .error (.unbound name)) →
      (∀ name, (env.evaluateAll f).result ≠ .error (.undefined name)) → env'.evaluateAll f = env.evaluateAll f) := by
  have hstrict := Registry.forall_of_builtin_or Builtin.strict_behaviour hregistry
  exact ⟨fun hunbound hundefined => settles_evaluate h hstrict f (avoids_isUnresolved hunbound hundefined),
    fun hunbound hundefined => settles_evaluateAll h hstrict f (avoids_isUnresolved hunbound hundefined)⟩

/-- The expressions `if(c, 'a', count(x))` and `div(c, 'a')`, before there is a function `count` and a value of `x`. -/
theorem evaluate_of_extends_branch :
    let b : Bindings := ({} : Bindings).set "c" (.boolean true)
    let env : Environment := ⟨.withBuiltins, b.resolve⟩
    let env' : Environment := ⟨(Registry.withBuiltins.register "count" ⟨Stock.count.behaviour, fun _ => []⟩).1,
      (b.set "x" (.text "b")).resolve⟩
    let s : Store := ⟨#[.variable "c", .literal "a", .variable "x", .call "count" [⟨2⟩], .call "if" [⟨0⟩, ⟨1⟩, ⟨3⟩],
      .call "div" [⟨0⟩, ⟨1⟩]]⟩
    ((env.evaluate ⟨s, [⟨4⟩]⟩).result = .ok (.text "a") ∧
      env'.evaluate ⟨s, [⟨4⟩]⟩ = env.evaluate ⟨s, [⟨4⟩]⟩) ∧
    (env.evaluateAll ⟨s, [⟨4⟩, ⟨5⟩, ⟨3⟩]⟩).result = .error (.failed (.kind "div" .boolean)) ∧
      env'.evaluateAll ⟨s, [⟨4⟩, ⟨5⟩, ⟨3⟩]⟩ = env.evaluateAll ⟨s, [⟨4⟩, ⟨5⟩, ⟨3⟩]⟩ := by
  intro b env env' s
  have hextends : env.Extends env' := (extends_register rfl _ _).trans (extends_set rfl _ _)
  have hregistry : ∀ name c, env.registry.get? name = some c →
      (∃ b : Builtin, c.behaviour = b.behaviour) ∨ c.behaviour.Strict :=
    fun _ _ hc => .inl (Registry.behaviour_of_get?_withBuiltins hc)
  have hone : (env.evaluate ⟨s, [⟨4⟩]⟩).result = .ok (.text "a") := rfl
  have hall : (env.evaluateAll ⟨s, [⟨4⟩, ⟨5⟩, ⟨3⟩]⟩).result = .error (.failed (.kind "div" .boolean)) := rfl
  obtain ⟨hsettled, -⟩ := evaluate_of_extends env env' hregistry hextends ⟨s, [⟨4⟩]⟩
  obtain ⟨-, hsettledAll⟩ := evaluate_of_extends env env' hregistry hextends ⟨s, [⟨4⟩, ⟨5⟩, ⟨3⟩]⟩
  exact ⟨⟨hone, hsettled (by simp [hone]) (by simp [hone])⟩, hall, hsettledAll (by simp [hall]) (by simp [hall])⟩

end Environment

end CallExpr

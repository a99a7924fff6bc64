import CallExpr.Proofs.Branches
import Mathlib.Logic.Equiv.Basic

/-!
# Functions under other names

A renaming `ρ` takes the names of functions to other names: in the calls of a store (`Store.rename`), in a registry
(`Registry.rename`), and in errors and events (`EvalError.rename`, `EvalEvent.rename`). Variables keep their names.

* `Script.Renamed`: two scripts that do the same under two names. The builtin functions are such scripts
  (`Builtin.nameless_behaviour`): they use the name of the call in their errors only.
* `Script.Renamed.run`: they do the same with arguments that do the same.
* `Environment.evaluateWithin_rename`: by induction on the nesting, so does every evaluation.
* `Environment.evaluateAt_rename`: names of functions have no meaning of their own.
-/

namespace CallExpr

variable {ρ : String → String}

/-! ## Renaming -/

/-- The name in a failure is that of the call. -/
def Failure.rename (ρ : String → String) : Failure → Failure
  | arity function expected found => arity (ρ function) expected found
  | kind function found => kind (ρ function) found
  | divisionByZero => divisionByZero
  | overflow function => overflow (ρ function)
  | custom message => custom message

def EvalError.rename (ρ : String → String) : EvalError → EvalError
  | dangling token => dangling token
  | unbound name => unbound name
  | undefined name => undefined (ρ name)
  | notSingle found => notSingle found
  | failed failure => failed (failure.rename ρ)
  | tooDeep token => tooDeep token

def Entry.rename (ρ : String → String) : Entry → Entry
  | literal content => literal content
  | .variable name => .variable name
  | call name arguments => call (ρ name) arguments

def Note.rename (ρ : String → String) : Note → Note
  | registered name defined => registered (ρ name) defined
  | called name arguments => called (ρ name) arguments
  | quoted name arguments => quoted (ρ name) (arguments.map (Option.map (Entry.rename ρ)))
  | caught error => caught (error.rename ρ)

def EvalEvent.rename (ρ : String → String) : EvalEvent → EvalEvent
  | registered name => registered (ρ name)
  | dispatched call name values => dispatched call (ρ name) values
  | noted note => noted (note.rename ρ)

namespace Store

def rename (ρ : String → String) (s : Store) : Store :=
  ⟨s.entries.map (Entry.rename ρ)⟩

@[simp]
theorem size_rename (ρ : String → String) (s : Store) : (s.rename ρ).size = s.size := by
  simp [rename, size]

theorem get?_rename (ρ : String → String) (s : Store) (t : Token) :
    (s.rename ρ).get? t = (s.get? t).map (Entry.rename ρ) := by
  simp [rename, get?]

end Store

namespace Registry

/-- Holds under `ρ name` what `r` holds under `name`. -/
def rename (ρ : String → String) (r : Registry) : Registry :=
  ⟨⟨r.callables.pairs.map fun pair => (ρ pair.1, pair.2)⟩⟩

theorem get?_rename (hρ : Function.Injective ρ) (r : Registry) (name : String) :
    (r.rename ρ).get? (ρ name) = r.get? name := by
  obtain ⟨⟨pairs⟩⟩ := r
  simp only [rename, get?, Named.get?]
  induction pairs with
  | nil => rfl
  | cons pair pairs ih =>
    rw [List.map_cons, List.lookup_cons, List.lookup_cons, ih]
    by_cases h : name = pair.1
    · simp [h]
    · have hne : (name == pair.1) = false := by simpa using h
      have hne' : (ρ name == ρ pair.1) = false := by simpa using fun heq => h (hρ heq)
      simp only [hne, hne']

end Registry

/-! ## Computations -/

namespace Traced

variable {α β : Type}

/-- The same computation, with other names in its error and its events. -/
def rename (ρ : String → String) (x : Traced EvalEvent EvalError α) : Traced EvalEvent EvalError α :=
  (x.mapTrace (EvalEvent.rename ρ)).mapError (EvalError.rename ρ)

theorem rename_result (ρ : String → String) (x : Traced EvalEvent EvalError α) :
    (x.rename ρ).result = x.result.mapError (EvalError.rename ρ) := rfl

theorem rename_pure (ρ : String → String) (a : α) : (pure a : Traced EvalEvent EvalError α).rename ρ = pure a := rfl

theorem rename_bind (x : Traced EvalEvent EvalError α) (f : α → Traced EvalEvent EvalError β) :
    (x >>= f).rename ρ = x.rename ρ >>= fun a => (f a).rename ρ := by
  cases h : x.result with
  | error e =>
    have h' : (x.rename ρ).result = .error (e.rename ρ) := by rw [rename_result, h, Except.mapError]
    rw [bind_of_error h, bind_of_error h']
    rfl
  | ok a =>
    have h' : (x.rename ρ).result = .ok a := by rw [rename_result, h, Except.mapError]
    rw [bind_of_ok h, bind_of_ok h']
    simp [rename, mapTrace, mapError]

theorem rename_observe (x : Traced EvalEvent EvalError α)
    {f g : Except EvalError α → Traced EvalEvent EvalError β}
    (h : ∀ r, g (r.mapError (EvalError.rename ρ)) = (f r).rename ρ) :
    (x.rename ρ).observe g = (x.observe f).rename ρ := by
  rw [observe, rename_result, h]
  simp [rename, observe, mapTrace, mapError]

theorem rename_mapM (f : α → Traced EvalEvent EvalError β) (l : List α) :
    (l.mapM f).rename ρ = l.mapM fun a => (f a).rename ρ := by
  induction l with
  | nil => rfl
  | cons a l ih => simp only [List.mapM_cons, rename_bind, rename_pure, ih]

theorem rename_gather (strategy : Strategy) (f : α → Traced EvalEvent EvalError Value) (l : List α) :
    (strategy.gather f l).rename ρ = strategy.gather (fun a => (f a).rename ρ) l := by
  cases strategy with
  | eager => exact rename_mapM f l
  | lazy => rfl

end Traced

/-! ## Scripts -/

/-- Two scripts that do the same, up to the names of functions. -/
inductive Script.Renamed (ρ : String → String) {n : Nat} : Script n → Script n → Prop where
  | done (result : Except EvalError Value) : Renamed ρ (.done result) (.done (result.mapError (EvalError.rename ρ)))
  | note (report : Note) {next next' : Script n} (h : Renamed ρ next next') :
      Renamed ρ (.note report next) (.note (report.rename ρ) next')
  | inspect (i : Fin n) {next next' : Token → Option Entry → Script n}
      (h : ∀ t e, Renamed ρ (next t e) (next' t (e.map (Entry.rename ρ)))) :
      Renamed ρ (.inspect i next) (.inspect i next')
  | evaluate (i : Fin n) {next next' : Except EvalError Value → Script n}
      (h : ∀ r, Renamed ρ (next r) (next' (r.mapError (EvalError.rename ρ)))) :
      Renamed ρ (.evaluate i next) (.evaluate i next')

/-- The function does the same under every name. -/
def Behaviour.Nameless (b : Behaviour) : Prop :=
  ∀ (ρ : String → String) name values n, Script.Renamed ρ (b.run name values n) (b.run (ρ name) values n)

/-- Scripts that do the same, with arguments that do the same. -/
theorem Script.Renamed.run {n : Nat} {script script' : Script n} (h : Script.Renamed ρ script script')
    {inspect inspect' : Fin n → Token × Option Entry} {evaluate evaluate' : Fin n → Traced EvalEvent EvalError Value}
    (hinspect : ∀ i, inspect' i = ((inspect i).1, (inspect i).2.map (Entry.rename ρ)))
    (hevaluate : ∀ i, evaluate' i = (evaluate i).rename ρ) :
    script'.run inspect' evaluate' = (script.run inspect evaluate).rename ρ := by
  induction h with
  | done result => rfl
  | note report _ ih =>
    rw [Script.run, Script.run, Traced.rename_bind, ih]
    rfl
  | inspect i _ ih =>
    rw [Script.run, Script.run, hinspect]
    exact ih _ _
  | evaluate i _ ih =>
    rw [Script.run, Script.run, hevaluate]
    exact Traced.rename_observe _ ih

/-! ## Builtin functions -/

theorem mapError_bind {ε ε' α β : Type} (g : ε → ε') (x : Except ε α) (f : α → Except ε β) :
    (x >>= f).mapError g = x.mapError g >>= fun a => (f a).mapError g := by
  cases x <;> rfl

section Arithmetic

variable (ρ) (op : Operation) (function : String)

theorem Number.ofValue_rename (v : Value) :
    ofValue (ρ function) v = (ofValue function v).mapError (Failure.rename ρ) := by
  cases v <;> rfl

theorem Number.narrow_rename (n : Int) :
    narrow (ρ function) n = (narrow function n).mapError (Failure.rename ρ) := by
  unfold narrow
  split <;> rfl

theorem Operation.apply_rename (a b : Number) :
    op.apply (ρ function) a b = (op.apply function a b).mapError (Failure.rename ρ) := by
  cases a with
  | float x => rfl
  | integer m =>
    cases b with
    | float y => rfl
    | integer n => exact Number.narrow_rename ρ function _

theorem Operation.combineFrom_rename (acc : Number) (vs : List Value) :
    op.combineFrom (ρ function) acc vs = (op.combineFrom function acc vs).mapError (Failure.rename ρ) := by
  induction vs generalizing acc with
  | nil => rfl
  | cons v vs ih =>
    simp only [combineFrom, mapError_bind, Number.ofValue_rename, apply_rename, ih]

namespace Arithmetic

theorem combineAll_rename (vs : List Value) :
    combineAll op (ρ function) vs = (combineAll op function vs).mapError (Failure.rename ρ) := by
  cases vs with
  | nil => rfl
  | cons v vs =>
    simp only [combineAll, mapError_bind, Number.ofValue_rename, Operation.combineFrom_rename]
    rfl

theorem two_rename (vs : List Value) : two (ρ function) vs = (two function vs).mapError (Failure.rename ρ) := by
  unfold two
  split <;> rfl

theorem twoNumbers_rename (vs : List Value) :
    twoNumbers (ρ function) vs = (twoNumbers function vs).mapError (Failure.rename ρ) := by
  simp only [twoNumbers, mapError_bind, two_rename, Number.ofValue_rename]
  rfl

theorem subtract_rename (vs : List Value) :
    subtract (ρ function) vs = (subtract function vs).mapError (Failure.rename ρ) := by
  simp only [subtract, mapError_bind, twoNumbers_rename, Operation.apply_rename]
  rfl

/-- A quotient fails without a name. -/
theorem quotient_rename (a b : Number) : quotient a b = (quotient a b).mapError (Failure.rename ρ) := by
  unfold quotient
  split
  · split
    · rfl
    · split <;> rfl
  · rfl

theorem divide_rename (vs : List Value) :
    divide (ρ function) vs = (divide function vs).mapError (Failure.rename ρ) := by
  simp only [divide, mapError_bind, twoNumbers_rename, ← quotient_rename]
  rfl

theorem equals_rename (vs : List Value) :
    equals (ρ function) vs = (equals function vs).mapError (Failure.rename ρ) := by
  simp only [equals, mapError_bind, two_rename]
  congr 1
  funext ⟨a, b⟩
  dsimp only
  split <;> rfl

end Arithmetic

end Arithmetic

namespace Builtin

theorem renamed_ofValues {run : String → List Value → Except Failure Value}
    (h : ∀ ρ name values, run (ρ name) values = (run name values).mapError (Failure.rename ρ)) :
    (ofValues run).Nameless := by
  intro ρ name values n
  have hresult : ((run (ρ name) values).mapError EvalError.failed) =
      ((run name values).mapError EvalError.failed).mapError (EvalError.rename ρ) := by
    rw [h]
    cases run name values <;> rfl
  simp only [ofValues, hresult]
  exact .done _

theorem renamed_chooseBranch (ρ : String → String) (r : Except EvalError Value) :
    Script.Renamed ρ (chooseBranch r) (chooseBranch (r.mapError (EvalError.rename ρ))) := by
  cases r with
  | error e => exact .done (.error e)
  | ok condition => exact .evaluate _ fun r => .done r

theorem renamed_chooseScript (ρ : String → String) (name : String) (n : Nat) :
    Script.Renamed ρ (chooseScript name n) (chooseScript (ρ name) n) := by
  by_cases hn : n = 3
  · subst hn
    exact .evaluate 0 (renamed_chooseBranch ρ)
  · rw [chooseScript_of_ne name hn, chooseScript_of_ne (ρ name) hn]
    exact .done (.error (.failed (.arity name (.exactly 3) n)))

/-- **A builtin function uses its name in errors only.** -/
theorem nameless_behaviour (b : Builtin) : b.behaviour.Nameless := by
  cases b with
  | add => exact renamed_ofValues fun ρ => Arithmetic.combineAll_rename ρ .sum
  | mul => exact renamed_ofValues fun ρ => Arithmetic.combineAll_rename ρ .product
  | sub => exact renamed_ofValues Arithmetic.subtract_rename
  | div => exact renamed_ofValues Arithmetic.divide_rename
  | concat => exact renamed_ofValues fun _ _ _ => rfl
  | eq => exact renamed_ofValues Arithmetic.equals_rename
  | choose => exact fun ρ name _ n => renamed_chooseScript ρ name n

end Builtin

/-! ## Evaluation -/

namespace Environment

variable {env : Environment}

/-- **Evaluation goes through a renaming.** -/
theorem evaluateWithin_rename (hnameless : ∀ name c, env.registry.get? name = some c → c.behaviour.Nameless)
    {r : Registry} (hr : ∀ name, r.get? (ρ name) = env.registry.get? name) (s : Store) (depth : Nat) (t : Token) :
    (⟨r, env.resolve⟩ : Environment).evaluateWithin (s.rename ρ) depth t = (env.evaluateWithin s depth t).rename ρ := by
  induction depth generalizing t with
  | zero => rfl
  | succ depth ih =>
    rw [evaluateWithin, evaluateWithin, Store.get?_rename]
    cases s.get? t with
    | none => rfl
    | some e =>
      cases e with
      | literal content => rfl
      | «variable» name =>
        dsimp only [Option.map, Entry.rename]
        cases env.resolve name <;> rfl
      | call name arguments =>
        dsimp only [Option.map, Entry.rename]
        rw [hr]
        cases hc : env.registry.get? name with
        | none => rfl
        | some c =>
          -- One level below, the renamed evaluations are those of the renamed store.
          have harguments : (⟨r, env.resolve⟩ : Environment).evaluateWithin (s.rename ρ) depth =
              fun u => (env.evaluateWithin s depth u).rename ρ := funext ih
          dsimp only
          rw [harguments, ← Traced.rename_gather, Traced.rename_bind]
          congr 1
          funext values
          rw [Traced.rename_bind]
          congr 1
          funext _
          exact (hnameless name c hc ρ name values _).run (fun i => by rw [Store.get?_rename]) fun i => rfl

/-- **Names of functions have no meaning of their own.** The functions of an environment are builtin, or do the same
under every name. A renaming takes different names to different ones; so there is a registry with the same functions
under the new names. With every such registry, and with the new names in the calls of a store, each token is evaluated
to the same value, or to the same error with the new names in it, and so are the events. -/
theorem evaluateAt_rename (env : Environment)
    (hregistry : ∀ name c, env.registry.get? name = some c →
      (∃ b : Builtin, c.behaviour = b.behaviour) ∨ c.behaviour.Nameless)
    {ρ : String → String} (hρ : Function.Injective ρ) :
    (∀ name, (env.registry.rename ρ).get? (ρ name) = env.registry.get? name) ∧
    ∀ r : Registry, (∀ name, r.get? (ρ name) = env.registry.get? name) → ∀ (s : Store) (t : Token),
      ((⟨r, env.resolve⟩ : Environment).evaluateAt (s.rename ρ) t).result =
        (env.evaluateAt s t).result.mapError (EvalError.rename ρ) ∧
      ((⟨r, env.resolve⟩ : Environment).evaluateAt (s.rename ρ) t).trace =
        (env.evaluateAt s t).trace.map (EvalEvent.rename ρ) := by
  have hnameless := Registry.forall_of_builtin_or Builtin.nameless_behaviour hregistry
  refine ⟨env.registry.get?_rename hρ, fun r hr s t => ?_⟩
  have hwithin := evaluateWithin_rename hnameless hr s (s.size + 1) t
  rw [evaluateAt, Store.size_rename, hwithin]
  exact ⟨rfl, rfl⟩

/-- The functions `add` and `if` change their names: `if('a', x, add('a', x))` and `add('a', x)`. -/
theorem evaluateAt_rename_swap :
    let ρ : String → String := Equiv.swap "add" "if"
    let env : Environment := ⟨.withBuiltins, fun name => some (.text name)⟩
    let env' : Environment := ⟨Registry.withBuiltins.rename ρ, fun name => some (.text name)⟩
    let s : Store := ⟨#[.literal "a", .variable "x", .call "add" [⟨0⟩, ⟨1⟩], .call "if" [⟨0⟩, ⟨1⟩, ⟨2⟩]]⟩
    ((env'.evaluateAt (s.rename ρ) ⟨3⟩).result = (env.evaluateAt s ⟨3⟩).result.mapError (EvalError.rename ρ) ∧
      (env.evaluateAt s ⟨3⟩).result = .ok (.text "x")) ∧
    (env'.evaluateAt (s.rename ρ) ⟨2⟩).result = .error (.failed (.kind "if" .text)) := by
  intro ρ env env' s
  have hregistry : ∀ name c, env.registry.get? name = some c →
      (∃ b : Builtin, c.behaviour = b.behaviour) ∨ c.behaviour.Nameless :=
    fun _ _ hc => .inl (Registry.behaviour_of_get?_withBuiltins hc)
  obtain ⟨hheld, hrename⟩ := evaluateAt_rename env hregistry (Equiv.injective (Equiv.swap "add" "if"))
  refine ⟨⟨(hrename _ hheld s ⟨3⟩).1, rfl⟩, (hrename _ hheld s ⟨2⟩).1.trans ?_⟩
  have hkind : (env.evaluateAt s ⟨2⟩).result = .error (.failed (.kind "add" .text)) := rfl
  rw [hkind]
  simp [Except.mapError, EvalError.rename, Failure.rename, Equiv.swap_apply_left]

end Environment

end CallExpr

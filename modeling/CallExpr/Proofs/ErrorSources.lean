import CallExpr.Evaluation
import CallExpr.Proofs.Blindness
import CallExpr.Proofs.Depth
import CallExpr.Proofs.LinearForest

/-!
# Where errors come from

* `Script.Avoids`: a function that has no error of a kind, unless it evaluates an argument that has one. The builtin
  functions and the stock functions avoid all errors but failures (`Builtin.avoids_behaviour`,
  `Stock.avoids_behaviour`).
* `Environment.avoids_evaluateWithin`: if all functions avoid a kind of errors, such an error of an expression comes
  from a variable without a value, from a name without a function, or from a token without an entry.
* `Forest.dangling?_eq_none_iff`, `Forest.dangling?_eq_some_iff`: what it means that no token is dangling, and that one
  is the first.
* `Environment.never_dangling`: so a dangling token is found before anything is evaluated, or there is none.
-/

namespace CallExpr

/-- The error is that of a token without an entry. -/
def EvalError.IsDangling (e : EvalError) : Prop :=
  ∃ t, e = .dangling t

/-! ## Computations and functions that avoid errors -/

namespace Traced

variable {ω ε α β : Type} {P : ε → Prop} {x : Traced ω ε α}

/-- The computation does not end with an error of the kind. -/
def Avoids (P : ε → Prop) (x : Traced ω ε α) : Prop :=
  ∀ e, x.result = .error e → ¬ P e

theorem Avoids.of_ok {a : α} (h : x.result = .ok a) : x.Avoids P := by
  simp [Avoids, h]

theorem avoids_fail {e : ε} (h : ¬ P e) : (fail e : Traced ω ε α).Avoids P := by
  intro e' he'
  cases he'
  exact h

/-- What goes on with the value avoids the errors, if both parts do. -/
theorem Avoids.bind {f : α → Traced ω ε β} (h : x.Avoids P) (hf : ∀ a, (f a).Avoids P) : (x >>= f).Avoids P := by
  intro e he
  cases hx : x.result with
  | error e' =>
    rw [bind_of_error hx] at he
    cases he
    exact h e hx
  | ok a =>
    rw [bind_of_ok hx] at he
    exact hf a e he

theorem Avoids.mapM {f : α → Traced ω ε β} {l : List α} (h : ∀ a ∈ l, (f a).Avoids P) : (l.mapM f).Avoids P := by
  induction l with
  | nil => exact .of_ok rfl
  | cons a l ih =>
    rw [List.mapM_cons]
    apply (h a List.mem_cons_self).bind
    intro b
    apply (ih fun a' ha' => h a' (List.mem_cons_of_mem a ha')).bind
    exact fun _ => .of_ok rfl

end Traced

/-- No error of the kind comes from the script, unless it comes from an argument. -/
def Script.Avoids {n : Nat} (P : EvalError → Prop) : Script n → Prop
  | .done result => ∀ e, result = .error e → ¬ P e
  | .note _ next => next.Avoids P
  | .inspect _ next => ∀ t e, (next t e).Avoids P
  | .evaluate _ next => ∀ result, (∀ e, result = .error e → ¬ P e) → (next result).Avoids P

/-- The function never makes up an error of the kind. -/
def Behaviour.Avoids (P : EvalError → Prop) (b : Behaviour) : Prop :=
  ∀ name values n, (b.run name values n).Avoids P

/-- No function of the registry makes up an error of the kind. -/
def Registry.Avoids (P : EvalError → Prop) (r : Registry) : Prop :=
  ∀ name c, r.get? name = some c → c.behaviour.Avoids P

section Functions

variable {P : EvalError → Prop} {n : Nat}

theorem Script.Avoids.run {script : Script n} (h : script.Avoids P) (inspect : Fin n → Token × Option Entry)
    {evaluate : Fin n → Traced EvalEvent EvalError Value} (hevaluate : ∀ i, (evaluate i).Avoids P) :
    (script.run inspect evaluate).Avoids P := by
  induction script with
  | done result => exact h
  | note report next ih => exact ih h
  | inspect i next ih => exact ih _ _ (h _ _)
  | evaluate i next ih => exact ih _ (h _ (hevaluate i))

namespace Builtin

/-- A builtin function has no errors but failures. -/
theorem avoids_behaviour (hP : ∀ failure, ¬ P (.failed failure)) (b : Builtin) : b.behaviour.Avoids P := by
  have hvalues : ∀ run, (ofValues run).Avoids P := by
    intro run name values n e he
    cases hrun : run name values with
    | ok value => simp [hrun, Except.mapError] at he
    | error failure =>
      obtain rfl : EvalError.failed failure = e := by simpa [hrun, Except.mapError] using he
      exact hP failure
  cases b with
  | add | mul | sub | div | concat | eq => exact hvalues _
  | choose =>
    intro name values n
    unfold behaviour chooseScript
    dsimp only
    split
    · intro condition hcondition
      cases condition with
      | error e => exact hcondition
      | ok value => exact fun _ => id
    · intro e he
      cases he
      exact hP _

end Builtin

namespace Stock

theorem avoids_quoteScript (name : String) (seen : List (Token × Option Entry)) (is : List (Fin n)) :
    (quoteScript name seen is).Avoids P := by
  induction is generalizing seen with
  | nil => exact nofun
  | cons i is ih => exact fun _ _ => ih _

theorem avoids_joinScript (seen : String) (is : List (Fin n)) : (joinScript seen is).Avoids P := by
  induction is generalizing seen with
  | nil => exact nofun
  | cons i is ih =>
    intro result hresult
    cases result with
    | ok value => exact ih _
    | error e => exact hresult

theorem avoids_attemptScript (n : Nat) : (attemptScript n).Avoids P := by
  unfold attemptScript
  split
  · exact nofun
  · intro result hresult
    cases result <;> exact hresult
  · intro result hresult
    cases result with
    | ok value => exact hresult
    | error e => exact fun _ => id

theorem avoids_nthScript (index n : Nat) : (nthScript index n).Avoids P := by
  unfold nthScript
  split
  · exact fun _ => id
  · exact nofun

/-- A stock function has no errors but failures. -/
theorem avoids_behaviour (hP : ∀ failure, ¬ P (.failed failure)) (x : Stock) : x.behaviour.Avoids P := by
  intro name values n
  cases x with
  | const | count | name | types | join | log => exact nofun
  | echo =>
    intro e he
    cases values with
    | nil => cases he; exact hP _
    | cons value values => cases he
  | fail message =>
    intro e he
    cases he
    exact hP _
  | nth index => exact avoids_nthScript index n
  | quote => exact avoids_quoteScript name [] _
  | attempt => exact avoids_attemptScript n
  | reverse => exact avoids_joinScript "" _
  | builtin b => exact b.avoids_behaviour hP name values n

end Stock

/-- A registry of builtin functions and of stock functions. -/
theorem Registry.avoids_enroll (hP : ∀ failure, ¬ P (.failed failure)) (registrations : List Registration) :
    (withBuiltins.enroll registrations).1.Avoids P := by
  intro name c hc
  rcases get?_registerAll hc with hmem | hget
  · rw [List.map_map] at hmem
    obtain ⟨x, -, rfl⟩ := List.mem_map.mp hmem
    exact x.stock.avoids_behaviour hP
  · obtain ⟨b, rfl⟩ := builtin_of_get?_withBuiltins hget
    exact b.avoids_behaviour hP

end Functions

/-! ## Expressions that avoid errors -/

namespace Environment

variable {env : Environment} {s : Store} {P : EvalError → Prop} {t : Token} {term : Term} {depth : Nat}

/-- **An error comes from a function, a name or a token.** If the functions avoid a kind of errors, and so do the names
and the tokens that are reached, then so does the evaluation. -/
theorem avoids_evaluateWithin (hfunctions : env.registry.Avoids P) (hunbound : ∀ name, ¬ P (.unbound name))
    (hundefined : ∀ name, ¬ P (.undefined name))
    (hreached : ∀ u, Relation.ReflTransGen s.Refers t u → s.get? u = none → ¬ P (.dangling u))
    (hterm : s.unfoldWithin depth t = some term) : (env.evaluateWithin s depth t).Avoids P := by
  induction depth generalizing t term with
  | zero => cases hterm
  | succ depth ih =>
    rw [evaluateWithin]
    cases he : s.get? t with
    | none => exact Traced.avoids_fail (hreached t .refl he)
    | some e =>
      cases e with
      | literal content => exact .of_ok rfl
      | «variable» name =>
        dsimp only
        cases env.resolve name with
        | none => exact Traced.avoids_fail (hunbound name)
        | some value => exact .of_ok rfl
      | call name arguments =>
        -- The arguments are reached from the call, and their terms have one level less.
        have harguments : ∀ u ∈ arguments, (env.evaluateWithin s depth u).Avoids P := by
          intro u hu
          obtain ⟨term, hterm⟩ := Store.exists_unfoldWithin_of_refers hterm ⟨_, he, hu⟩
          exact ih (fun v hv => hreached v (.head ⟨_, he, hu⟩ hv)) hterm
        dsimp only
        cases hc : env.registry.get? name with
        | none => exact Traced.avoids_fail (hundefined name)
        | some c =>
          have hgather : (c.behaviour.strategy.gather (env.evaluateWithin s depth) arguments).Avoids P := by
            cases c.behaviour.strategy with
            | eager => exact .mapM harguments
            | lazy => exact .of_ok rfl
          apply hgather.bind
          intro values
          apply Traced.Avoids.bind (.of_ok rfl)
          exact fun _ => (hfunctions name c hc name values _).run _ fun i => harguments _ (List.getElem_mem _)

end Environment

/-! ## Dangling tokens -/

namespace Forest

variable {f : Forest} {t u : Token}

theorem dangling?_eq_none_iff : f.dangling? = none ↔ ∀ u ∈ f.roots ++ f.store.references, u.index < f.store.size := by
  simp [dangling?, Store.contains, or_imp, forall_and]

/-- The first token without an entry. -/
theorem dangling?_eq_some_iff : f.dangling? = some u ↔ f.store.get? u = none ∧
    ∃ before after, f.roots ++ f.store.references = before ++ u :: after ∧ ∀ v ∈ before, (f.store.get? v).isSome := by
  have hcontains : ∀ v, f.store.contains v = (f.store.get? v).isSome := by
    intro v
    rw [Bool.eq_iff_iff, Store.contains_iff, Store.isSome_get?_iff]
  rw [dangling?, List.find?_eq_some_iff_append]
  simp [hcontains]

/-- Without a dangling token, every token that is reached from a root has an entry. -/
theorem get?_ne_none_of_reached (h : f.dangling? = none) (hroot : t ∈ f.roots)
    (hu : Relation.ReflTransGen f.store.Refers t u) : f.store.get? u ≠ none := by
  have hmem : u ∈ f.roots ++ f.store.references := by
    rcases hu.cases_tail with rfl | ⟨v, -, hv⟩
    · exact List.mem_append_left _ hroot
    · exact List.mem_append_right _ (Store.mem_references_iff.mpr ⟨v, hv⟩)
  rw [← Option.isSome_iff_ne_none, Store.isSome_get?_iff]
  exact dangling?_eq_none_iff.mp h u hmem

end Forest

namespace Environment

variable {env : Environment} {f : Forest} {d : Dialect} {source : String}

theorem avoids_evaluateAt (hfunctions : env.registry.Avoids EvalError.IsDangling) (hordered : f.store.Ordered)
    (hdangling : f.dangling? = none) {root : Token} (hroot : root ∈ f.roots) :
    (env.evaluateAt f.store root).Avoids EvalError.IsDangling := by
  have hlt : root.index < f.store.size := Forest.dangling?_eq_none_iff.mp hdangling root (List.mem_append_left _ hroot)
  have hterm : f.store.Unfolds root _ := hordered.unfolds hlt
  apply avoids_evaluateWithin hfunctions _ _ _ hterm.within_size
  · rintro name ⟨t, ⟨⟩⟩
  · rintro name ⟨t, ⟨⟩⟩
  · intro u hu hnone
    exact absurd hnone (Forest.get?_ne_none_of_reached hdangling hroot hu)

theorem avoids_evaluateAll (hfunctions : env.registry.Avoids EvalError.IsDangling) (hordered : f.store.Ordered)
    (hdangling : f.dangling? = none) : (env.evaluateAll f).Avoids EvalError.IsDangling :=
  .mapM fun _ => avoids_evaluateAt hfunctions hordered hdangling

theorem avoids_evaluate (hfunctions : env.registry.Avoids EvalError.IsDangling) (hordered : f.store.Ordered)
    (hdangling : f.dangling? = none) : (env.evaluate f).Avoids EvalError.IsDangling := by
  unfold evaluate
  split
  · next root hroot => exact avoids_evaluateAt hfunctions hordered hdangling (by simp [hroot])
  · apply Traced.avoids_fail
    rintro ⟨t, ⟨⟩⟩

/-- A source that is read is evaluated as its forest is. -/
theorem result_evaluate_of_read {forest : Forest} (h : (d.read source).result = .ok forest) :
    (Setup.evaluate ⟨env, d⟩ source).result = (env.evaluate forest).result.mapError Error.eval := by
  have hok : (((d.read source).mapTrace Event.read).mapError Error.read).result = .ok forest := by
    rw [Traced.mapError, Traced.mapTrace, h]
    rfl
  rw [Setup.evaluate, Setup.andThen, Traced.bind_of_ok hok]
  rfl

/-- An error of a source is an error of its reading, or one of the evaluation of its forest. -/
theorem result_of_evaluate_source {e : EvalError} (h : (Setup.evaluate ⟨env, d⟩ source).result = .error (.eval e)) :
    ∃ forest, (d.read source).result = .ok forest ∧ (env.evaluate forest).result = .error e := by
  cases hread : (d.read source).result with
  | error e' =>
    have herror : (((d.read source).mapTrace Event.read).mapError Error.read).result = .error (.read e') := by
      rw [Traced.mapError, Traced.mapTrace, hread]
      rfl
    rw [Setup.evaluate, Setup.andThen, Traced.bind_of_error herror] at h
    cases h
  | ok forest =>
    rw [result_evaluate_of_read hread] at h
    refine ⟨forest, rfl, ?_⟩
    cases hresult : (env.evaluate forest).result with
    | ok value => simp [hresult, Except.mapError] at h
    | error e' => simpa [hresult, Except.mapError] using h

/-- **Dangling tokens are found before anything is evaluated.** A forest whose calls refer to earlier tokens only and
that has no dangling token is evaluated without the error of a dangling token; so is every source. If there is a
dangling token, the first of them is found: of the roots, then of the arguments in the order of the store. -/
theorem never_dangling (env : Environment)
    (hregistry : ∀ name c, env.registry.get? name = some c →
      (∃ b : Builtin, c.behaviour = b.behaviour) ∨ c.behaviour.Avoids EvalError.IsDangling) :
    (∀ f : Forest,
      (∀ t name arguments, f.store.get? t = some (.call name arguments) → ∀ u ∈ arguments, u.index < t.index) →
      f.dangling? = none → ∀ t,
        (env.evaluate f).result ≠ .error (.dangling t) ∧ (env.evaluateAll f).result ≠ .error (.dangling t)) ∧
    (∀ (d : Dialect) (source : String) (t : Token),
      (Setup.evaluate ⟨env, d⟩ source).result ≠ .error (.eval (.dangling t))) ∧
    ∀ (f : Forest) (u : Token), f.dangling? = some u → f.store.get? u = none ∧
      ∃ before after, f.roots ++ f.store.toList.flatMap Entry.arguments = before ++ u :: after ∧
        ∀ v ∈ before, (f.store.get? v).isSome := by
  have hfunctions : env.registry.Avoids EvalError.IsDangling := by
    intro name c hc
    rcases hregistry name c hc with ⟨b, hb⟩ | h
    · rw [hb]
      apply b.avoids_behaviour
      rintro failure ⟨t, ⟨⟩⟩
    · exact h
  refine ⟨fun f hcalls hdangling t => ?_, fun d source t h => ?_, fun f u => Forest.dangling?_eq_some_iff.mp⟩
  · have hordered : f.store.Ordered := by
      intro t e he u hu
      cases e with
      | literal | «variable» => cases hu
      | call name arguments => exact hcalls t name arguments he u hu
    exact ⟨fun h => avoids_evaluate hfunctions hordered hdangling _ h ⟨t, rfl⟩,
      fun h => avoids_evaluateAll hfunctions hordered hdangling _ h ⟨t, rfl⟩⟩
  · obtain ⟨forest, hread, herror⟩ := result_of_evaluate_source h
    obtain ⟨-, lexemes, terms, hscan, hterms, -, hforest⟩ := Dialect.read_eq_ok_iff.mp hread
    have hlinear : forest.Linear := hforest ▸ Forest.linear_ofTerms (tokensAll_of_readTerms hscan hterms)
    exact avoids_evaluate hfunctions hlinear.ordered hlinear.dangling?_eq_none _ herror ⟨t, rfl⟩

theorem never_dangling_try :
    let env : Environment := ⟨(Registry.withBuiltins.enroll [⟨"try", .attempt, none⟩]).1, fun _ => none⟩
    let f : Forest := ⟨⟨#[.variable "x", .literal "a", .call "try" [⟨0⟩, ⟨1⟩]]⟩, [⟨2⟩]⟩
    let g : Forest := ⟨⟨#[.variable "x", .call "try" [⟨0⟩, ⟨7⟩], .call "f" [⟨9⟩]]⟩, [⟨1⟩]⟩
    (∀ t, (env.evaluate f).result ≠ .error (.dangling t)) ∧ g.dangling? = some ⟨7⟩ ∧ g.store.get? ⟨7⟩ = none := by
  intro env f g
  have hregistry : env.registry.Avoids EvalError.IsDangling := by
    apply Registry.avoids_enroll
    rintro failure ⟨t, ⟨⟩⟩
  obtain ⟨hevaluate, -, hfirst⟩ := never_dangling env fun name c hc => .inr (hregistry name c hc)
  have hordered : ∀ t name arguments, f.store.get? t = some (.call name arguments) →
      ∀ u ∈ arguments, u.index < t.index := by
    rintro ⟨_ | _ | _ | i⟩ name arguments h <;> cases h
    decide
  exact ⟨fun t => (hevaluate f hordered rfl t).1, rfl, (hfirst g ⟨7⟩ rfl).1⟩

end Environment

end CallExpr

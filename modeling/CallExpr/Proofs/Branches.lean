import CallExpr.Proofs.Compositional

/-!
# The branch that is not chosen

* `Context`: a term with one place left open, and `Context.plug`: the term with something in that place.
* `Environment.meaning_plug_congr`: terms of one meaning are exchangeable in every context.
* `Environment.meaning_choose`: a choice means what the branch means that its condition chooses, and the other branch
  is not looked at (`Environment.meaning_choose_congr`).
* `Environment.evaluateAt_unchosen`: whatever the other branch is replaced by, the whole expression is evaluated to the
  same result, with the same calls.
-/

namespace CallExpr

/-- A term with one place left open. -/
inductive Context where
  | hole
  /-- The place is in an argument of a call, with the arguments before and after that one. -/
  | argument (name : String) (before : List Term) (inner : Context) (after : List Term)

namespace Context

/-- Puts a term in the place. -/
def plug : Context → Term → Term
  | hole, t => t
  | argument name before inner after, t => .call name (before ++ inner.plug t :: after)

end Context

theorem Builtin.chooseScript_of_ne (name : String) {n : Nat} (h : n ≠ 3) :
    chooseScript name n = .done (.error (.failed (.arity name (.exactly 3) n))) := by
  unfold chooseScript
  split
  · exact absurd rfl h
  · rfl

/-- Builtin functions are blind too. -/
theorem Registry.blind_of_builtin_or_blind {r : Registry}
    (h : ∀ name c, r.get? name = some c → (∃ b : Builtin, c.behaviour = b.behaviour) ∨ c.behaviour.Blind) :
    r.Blind :=
  forall_of_builtin_or Builtin.blind_behaviour h

/-- A registry of builtin functions and of stock functions that do not quote their arguments. -/
theorem Registry.builtin_or_blind_enroll {registrations : List Registration} {name : String} {c : Callable}
    (h : ∀ x ∈ registrations, x.stock ≠ .quote) (hc : (withBuiltins.enroll registrations).1.get? name = some c) :
    (∃ b : Builtin, c.behaviour = b.behaviour) ∨ c.behaviour.Blind := by
  rcases get?_registerAll hc with hmem | hget
  · rw [List.map_map] at hmem
    obtain ⟨x, hx, rfl⟩ := List.mem_map.mp hmem
    exact Or.inr (Stock.blind_behaviour (h x hx))
  · obtain ⟨b, rfl⟩ := builtin_of_get?_withBuiltins hget
    exact Or.inl ⟨b, rfl⟩

namespace Environment

variable {env : Environment} {name : String} {c : Callable} {condition yes yes' no no' : Term}

/-- **Terms of one meaning are exchangeable in every context.** -/
theorem meaning_plug_congr {t t' : Term} (h : env.meaning t = env.meaning t') (context : Context) :
    env.meaning (context.plug t) = env.meaning (context.plug t') := by
  induction context with
  | hole => exact h
  | argument name before inner after ih =>
    rw [Context.plug, Context.plug, meaning, meaning]
    simp only [meanings_eq_map, List.map_append, List.map_cons, ih]

/-- The condition comes first, then the branch that it chooses. -/
theorem meaning_choose (hc : env.registry.get? name = some c) (hchoose : c.behaviour = Builtin.choose.behaviour)
    (condition yes no : Term) : env.meaning (.call name [condition, yes, no]) = (do
      .emit (name, 0)
      let value ← env.meaning condition
      env.meaning (if value.truthy then yes else no)) :=
  compositional_meaning.choose name c condition yes no hc hchoose

/-- Two choices with one condition are the same, if so are the branches that it can choose. -/
theorem meaning_choose_congr (hc : env.registry.get? name = some c)
    (hchoose : c.behaviour = Builtin.choose.behaviour)
    (h : ∀ value, (env.meaning condition).result = .ok value →
      env.meaning (if value.truthy then yes else no) = env.meaning (if value.truthy then yes' else no')) :
    env.meaning (.call name [condition, yes, no]) = env.meaning (.call name [condition, yes', no']) := by
  rw [meaning_choose hc hchoose, meaning_choose hc hchoose]
  congr 1
  funext _
  cases hcondition : (env.meaning condition).result with
  | error e => rw [Traced.bind_of_error hcondition, Traced.bind_of_error hcondition]
  | ok value => rw [Traced.bind_of_ok hcondition, Traced.bind_of_ok hcondition, h value hcondition]

/-- A choice with another number of arguments fails, and evaluates none of them. -/
theorem evaluateAt_choose_of_ne {s : Store} {t : Token} {arguments : List Token}
    (hc : env.registry.get? name = some c) (hchoose : c.behaviour = Builtin.choose.behaviour)
    (ht : s.get? t = some (.call name arguments)) (hlength : arguments.length ≠ 3) :
    env.evaluateAt s t =
      ⟨.error (.failed (.arity name (.exactly 3) arguments.length)), [.dispatched t name 0]⟩ := by
  rw [evaluateAt, evaluateWithin, ht]
  dsimp only
  rw [hc]
  dsimp only
  rw [hchoose]
  simp only [Builtin.behaviour, Builtin.chooseScript_of_ne name hlength]
  rfl

/-- **The branch that is not chosen does not matter.** In an environment of builtin functions and of functions that
see values only, a choice stands anywhere in an expression. If its condition is not evaluated to a false value, then
another last argument changes neither the result of the expression nor the calls that are carried out; if it is not
evaluated to a true value, so it is with the second argument. A choice with another number of arguments fails and
evaluates none of them. -/
theorem evaluateAt_unchosen (env : Environment)
    (hregistry : ∀ name c, env.registry.get? name = some c →
      (∃ b : Builtin, c.behaviour = b.behaviour) ∨ c.behaviour.Blind)
    {name : String} {c : Callable} (hc : env.registry.get? name = some c)
    (hchoose : c.behaviour = Builtin.choose.behaviour) :
    (∀ (context : Context) (condition yes no no' : Term) (s₀ s s' : Store) (u t t' : Token),
      s₀.Unfolds u condition → (∀ value, (env.evaluateAt s₀ u).result = .ok value → value.truthy = true) →
      s.Unfolds t (context.plug (.call name [condition, yes, no])) →
      s'.Unfolds t' (context.plug (.call name [condition, yes, no'])) →
      (env.evaluateAt s t).filterTrace EvalEvent.dispatch? =
        (env.evaluateAt s' t').filterTrace EvalEvent.dispatch?) ∧
    (∀ (context : Context) (condition yes yes' no : Term) (s₀ s s' : Store) (u t t' : Token),
      s₀.Unfolds u condition → (∀ value, (env.evaluateAt s₀ u).result = .ok value → value.truthy = false) →
      s.Unfolds t (context.plug (.call name [condition, yes, no])) →
      s'.Unfolds t' (context.plug (.call name [condition, yes', no])) →
      (env.evaluateAt s t).filterTrace EvalEvent.dispatch? =
        (env.evaluateAt s' t').filterTrace EvalEvent.dispatch?) ∧
    ∀ (s : Store) (t : Token) (arguments : List Token), s.get? t = some (.call name arguments) →
      arguments.length ≠ 3 → env.evaluateAt s t =
        ⟨.error (.failed (.arity name (.exactly 3) arguments.length)), [.dispatched t name 0]⟩ := by
  have hblind : env.registry.Blind := Registry.blind_of_builtin_or_blind hregistry
  refine ⟨?_, ?_, fun s t arguments ht hlength => evaluateAt_choose_of_ne hc hchoose ht hlength⟩
  · intro context condition yes no no' s₀ s s' u t t' hu hvalue ht ht'
    rw [filterTrace_evaluateAt hblind ht, filterTrace_evaluateAt hblind ht']
    refine meaning_plug_congr (meaning_choose_congr hc hchoose fun value hcondition => ?_) context
    rw [← filterTrace_evaluateAt hblind hu] at hcondition
    rw [hvalue value hcondition, if_pos rfl, if_pos rfl]
  · intro context condition yes yes' no s₀ s s' u t t' hu hvalue ht ht'
    rw [filterTrace_evaluateAt hblind ht, filterTrace_evaluateAt hblind ht']
    refine meaning_plug_congr (meaning_choose_congr hc hchoose fun value hcondition => ?_) context
    rw [← filterTrace_evaluateAt hblind hu] at hcondition
    rw [hvalue value hcondition, if_neg Bool.false_ne_true, if_neg Bool.false_ne_true]

/-- In `log(if(x, 'a', ·), 'b')` stand the unknown call `nope(#20)` and the variable `y`, as they do in
`log('b', if('', ·, 'a'))`; the condition `nope()` has no value. -/
theorem evaluateAt_unchosen_nope :
    let env : Environment := ⟨(Registry.withBuiltins.enroll [⟨"log", .log, none⟩]).1, fun name => some (.text name)⟩
    let s : Store := ⟨#[.variable "x", .literal "a", .call "nope" [⟨20⟩], .call "if" [⟨0⟩, ⟨1⟩, ⟨2⟩], .literal "b",
      .call "log" [⟨3⟩, ⟨4⟩], .call "if" [⟨2⟩, ⟨2⟩], .call "if" [⟨2⟩, ⟨0⟩, ⟨1⟩], .literal "",
      .call "if" [⟨8⟩, ⟨2⟩, ⟨1⟩], .call "log" [⟨4⟩, ⟨9⟩]]⟩
    let s' : Store := ⟨#[.variable "y", .literal "a", .variable "x", .call "if" [⟨2⟩, ⟨1⟩, ⟨0⟩], .literal "b",
      .call "log" [⟨3⟩, ⟨4⟩], .call "nope" [⟨20⟩], .call "if" [⟨6⟩, ⟨4⟩, ⟨1⟩], .literal "",
      .call "if" [⟨8⟩, ⟨0⟩, ⟨1⟩], .call "log" [⟨4⟩, ⟨9⟩]]⟩
    ((env.evaluateAt s ⟨5⟩).filterTrace EvalEvent.dispatch? =
        (env.evaluateAt s' ⟨5⟩).filterTrace EvalEvent.dispatch? ∧
      (env.evaluateAt s ⟨5⟩).filterTrace EvalEvent.dispatch? = ⟨.ok (.text "b"), [("if", 0), ("log", 2)]⟩) ∧
    ((env.evaluateAt s ⟨10⟩).filterTrace EvalEvent.dispatch? =
        (env.evaluateAt s' ⟨10⟩).filterTrace EvalEvent.dispatch? ∧
      (env.evaluateAt s ⟨10⟩).filterTrace EvalEvent.dispatch? = ⟨.ok (.text "a"), [("if", 0), ("log", 2)]⟩) ∧
    (env.evaluateAt s ⟨7⟩).filterTrace EvalEvent.dispatch? =
      (env.evaluateAt s' ⟨7⟩).filterTrace EvalEvent.dispatch? ∧
    env.evaluateAt s ⟨6⟩ = ⟨.error (.failed (.arity "if" (.exactly 3) 2)), [.dispatched ⟨6⟩ "if" 0]⟩ := by
  intro env s s'
  have hregistry : ∀ name c, env.registry.get? name = some c →
      (∃ b : Builtin, c.behaviour = b.behaviour) ∨ c.behaviour.Blind :=
    fun _ _ => Registry.builtin_or_blind_enroll (by simp)
  have hif : env.registry.get? "if" = some Builtin.choose.callable := rfl
  obtain ⟨hno, hyes, harity⟩ := evaluateAt_unchosen env hregistry hif rfl
  refine ⟨⟨?_, rfl⟩, ⟨?_, rfl⟩, ?_, harity s ⟨6⟩ _ rfl (by decide)⟩
  · refine hno (.argument "log" [] .hole [.literal "b"]) (.variable "x") (.literal "a") (.call "nope" [.missing ⟨20⟩])
      (.variable "y") s s s' ⟨0⟩ ⟨5⟩ ⟨5⟩ ⟨1, rfl⟩ ?_ ⟨4, rfl⟩ ⟨4, rfl⟩
    rintro value ⟨⟩
    rfl
  · refine hyes (.argument "log" [.literal "b"] .hole []) (.literal "") (.call "nope" [.missing ⟨20⟩]) (.variable "y")
      (.literal "a") s s s' ⟨8⟩ ⟨10⟩ ⟨10⟩ ⟨1, rfl⟩ ?_ ⟨4, rfl⟩ ⟨4, rfl⟩
    rintro value ⟨⟩
    rfl
  · refine hyes .hole (.call "nope" [.missing ⟨20⟩]) (.variable "x") (.literal "b") (.literal "a") s s s' ⟨2⟩ ⟨7⟩ ⟨7⟩
      ⟨2, rfl⟩ ?_ ⟨3, rfl⟩ ⟨3, rfl⟩
    rintro value ⟨⟩

end Environment

end CallExpr

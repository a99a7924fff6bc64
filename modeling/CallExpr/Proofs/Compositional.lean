import CallExpr.Proofs.Blindness
import CallExpr.Proofs.Depth

/-!
# Evaluation follows the meaning of terms

* `Environment.filterTrace_evaluateWithin`: a token is evaluated to the meaning of its term, if no function looks at
  the store.
* `Environment.Compositional`: how the meaning of a term is made of those of its parts. So it is with
  `Environment.meaning`, and with nothing else (`Environment.compositional_iff`).
* `Environment.evaluateAt_eq_meaning`: both for a registry of builtin and of blind functions. Tokens with the same
  term cannot be told apart.
-/

namespace CallExpr

namespace Environment

variable (env : Environment) {s : Store} {t : Token} {term : Term} {depth : Nat}

theorem meanings_eq_map (terms : List Term) : env.meanings terms = terms.map env.meaning := by
  induction terms with
  | nil => rfl
  | cons term terms ih => rw [meanings, ih, List.map_cons]

/-- The arguments of a call may be things that have meanings. -/
theorem callMeaning_map {env : Environment} {name : String} {c : Callable} (hc : env.registry.get? name = some c)
    {α : Type} (f : α → Traced (String × Nat) EvalError Value) (arguments : List α) :
    env.callMeaning name (arguments.map f) = (do
      let values ← c.behaviour.strategy.gather f arguments
      .emit (name, values.length)
      (c.behaviour.run name values arguments.length).meaning fun i => f arguments[i]) := by
  -- A list and its image are of the same length, but not by definition.
  have hscript : ∀ values, (c.behaviour.run name values (arguments.map f).length).meaning
      (fun i => (arguments.map f).get i) =
      (c.behaviour.run name values arguments.length).meaning fun i => f arguments[i] := by
    intro values
    rw [← Script.meaning_cast (c.behaviour.run name values) (List.length_map f)]
    simp
  have hgather : c.behaviour.strategy.gather id (arguments.map f) = c.behaviour.strategy.gather f arguments := by
    cases c.behaviour.strategy with
    | eager => exact List.mapM_map
    | lazy => rfl
  rw [callMeaning, hc]
  simp only [hgather, hscript]

/-! ## From tokens to terms -/

section Tokens

variable {env}

/-- A call is carried out as its meaning says, given what its arguments do. -/
theorem filterTrace_evaluateWithin_call (hblind : env.registry.Blind) {name : String} {arguments : List Token}
    (he : s.get? t = some (.call name arguments)) :
    (env.evaluateWithin s (depth + 1) t).filterTrace EvalEvent.dispatch? =
      env.callMeaning name (arguments.map fun u => (env.evaluateWithin s depth u).filterTrace EvalEvent.dispatch?) := by
  rw [evaluateWithin, he]
  dsimp only
  cases hc : env.registry.get? name with
  | none => rw [callMeaning, hc, Traced.filterTrace_fail]
  | some c =>
    rw [callMeaning_map hc]
    simp only [Traced.filterTrace_bind, Traced.filterTrace_gather, EvalEvent.filterTrace_dispatched,
      (hblind name c hc name _ _).filterTrace_run]

/-- The meanings of the terms of tokens are what evaluating the tokens gives. -/
theorem map_filterTrace_evaluateWithin {arguments : List Token} {terms : List Term}
    (h : ∀ u term, s.unfoldWithin depth u = some term →
      (env.evaluateWithin s depth u).filterTrace EvalEvent.dispatch? = env.meaning term)
    (hterms : arguments.mapM (s.unfoldWithin depth) = some terms) :
    arguments.map (fun u => (env.evaluateWithin s depth u).filterTrace EvalEvent.dispatch?) = env.meanings terms := by
  induction arguments generalizing terms with
  | nil =>
    obtain rfl := Option.some.inj hterms
    rfl
  | cons u arguments ih =>
    obtain ⟨term, hterm, rest, hrest, rfl⟩ := mapM_cons_eq_some_iff.mp hterms
    rw [List.map_cons, h u term hterm, ih hrest, meanings]

/-- **A token is evaluated to the meaning of its term.** -/
theorem filterTrace_evaluateWithin (hblind : env.registry.Blind) (h : s.unfoldWithin depth t = some term) :
    (env.evaluateWithin s depth t).filterTrace EvalEvent.dispatch? = env.meaning term := by
  -- The terms of the arguments have one level less.
  induction depth generalizing t term with
  | zero => cases h
  | succ depth ih =>
    cases he : s.get? t with
    | none =>
      rw [Store.unfoldWithin_of_none _ he] at h
      obtain rfl := Option.some.inj h
      rw [evaluateWithin, he, meaning]
      rfl
    | some e =>
      rw [Store.unfoldWithin_of_get? _ he] at h
      cases e with
      | literal content =>
        obtain rfl := Option.some.inj h
        rw [evaluateWithin, he, meaning]
        rfl
      | «variable» name =>
        obtain rfl := Option.some.inj h
        rw [evaluateWithin, he, meaning]
        rfl
      | call name arguments =>
        obtain ⟨terms, hterms, rfl⟩ := Option.map_eq_some_iff.mp h
        rw [filterTrace_evaluateWithin_call hblind he, map_filterTrace_evaluateWithin (fun _ _ => ih) hterms, meaning]

theorem filterTrace_evaluateAt (hblind : env.registry.Blind) (h : s.Unfolds t term) :
    (env.evaluateAt s t).filterTrace EvalEvent.dispatch? = env.meaning term :=
  filterTrace_evaluateWithin hblind h.within_size

end Tokens

/-! ## From terms to their parts -/

/-- What a function does, given its values and the meanings of its arguments. -/
def runOn (m : Term → Traced (String × Nat) EvalError Value) (b : Behaviour) (name : String) (values : List Value)
    (arguments : List Term) : Traced (String × Nat) EvalError Value :=
  (b.run name values arguments.length).meaning fun i => m arguments[i]

/-- The meaning of a term is made of the meanings of its parts. -/
structure Compositional (m : Term → Traced (String × Nat) EvalError Value) : Prop where
  literal : ∀ content, m (.literal content) = pure (.text content)
  bound : ∀ name value, env.resolve name = some value → m (.variable name) = pure value
  unbound : ∀ name, env.resolve name = none → m (.variable name) = .fail (.unbound name)
  missing : ∀ t, m (.missing t) = .fail (.dangling t)
  /-- No argument is looked at. -/
  undefined : ∀ name arguments, env.registry.get? name = none → m (.call name arguments) = .fail (.undefined name)
  /-- All arguments have values: the function gets them. -/
  eager_ok : ∀ name c arguments (values : List Value), env.registry.get? name = some c → c.behaviour.strategy = .eager →
    arguments.map (fun a => (m a).result) = values.map .ok →
    (m (.call name arguments)).result = (runOn m c.behaviour name values arguments).result ∧
    (m (.call name arguments)).trace = arguments.flatMap (fun a => (m a).trace) ++
      (name, values.length) :: (runOn m c.behaviour name values arguments).trace
  /-- The first argument without a value: the function does not run, and no later argument is looked at. -/
  eager_error : ∀ name c before (values : List Value) a e after, env.registry.get? name = some c →
    c.behaviour.strategy = .eager → before.map (fun a => (m a).result) = values.map .ok → (m a).result = .error e →
    (m (.call name (before ++ a :: after))).result = .error e ∧
    (m (.call name (before ++ a :: after))).trace = (before ++ [a]).flatMap fun a => (m a).trace
  /-- The function gets no values. -/
  lazy : ∀ name c arguments, env.registry.get? name = some c → c.behaviour.strategy = .lazy →
    (m (.call name arguments)).result = (runOn m c.behaviour name [] arguments).result ∧
    (m (.call name arguments)).trace = (name, 0) :: (runOn m c.behaviour name [] arguments).trace
  /-- The condition, then one of the branches. -/
  choose : ∀ name c condition yes no, env.registry.get? name = some c → c.behaviour = Builtin.choose.behaviour →
    m (.call name [condition, yes, no]) = (do
      .emit (name, 0)
      let value ← m condition
      m (if value.truthy then yes else no))

variable {env}

theorem meaning_call {name : String} {c : Callable} (hc : env.registry.get? name = some c) (arguments : List Term) :
    env.meaning (.call name arguments) = (do
      let values ← c.behaviour.strategy.gather env.meaning arguments
      .emit (name, values.length)
      runOn env.meaning c.behaviour name values arguments) := by
  rw [meaning, meanings_eq_map, callMeaning_map hc]
  rfl

theorem runOn_choose (m : Term → Traced (String × Nat) EvalError Value) (name : String) (values : List Value)
    (condition yes no : Term) : runOn m Builtin.choose.behaviour name values [condition, yes, no] = (do
      let value ← m condition
      m (if value.truthy then yes else no)) := by
  have hbranch : ∀ value : Value, (m [condition, yes, no][if value.truthy then (1 : Fin 3) else 2]).observe .ofExcept =
      m (if value.truthy then yes else no) := by
    intro value
    rw [Traced.observe_ofExcept]
    cases value.truthy <;> rfl
  have hrun : runOn m Builtin.choose.behaviour name values [condition, yes, no] = (m condition).observe fun result =>
      (Builtin.chooseBranch result).meaning fun i => m [condition, yes, no][i] := rfl
  rw [hrun, Traced.observe_eq_bind _ fun _ => rfl]
  simp only [Builtin.chooseBranch, Script.meaning, hbranch]

theorem compositional_meaning : env.Compositional env.meaning where
  literal _ := by rw [meaning]
  bound name value h := by rw [meaning, h]; rfl
  unbound name h := by rw [meaning, h]; rfl
  missing _ := by rw [meaning]
  undefined name arguments h := by rw [meaning, callMeaning, h]
  eager_ok name c arguments values hc hstrategy h := by
    rw [meaning_call hc, hstrategy, Strategy.gather, Traced.mapM_of_ok h, Traced.bind_of_ok rfl, Traced.bind_of_ok rfl]
    exact ⟨rfl, rfl⟩
  eager_error name c before values a e after hc hstrategy h he := by
    rw [meaning_call hc, hstrategy, Strategy.gather, Traced.mapM_of_error h he, Traced.bind_of_error rfl]
    exact ⟨rfl, rfl⟩
  lazy name c arguments hc hstrategy := by
    rw [meaning_call hc, hstrategy]
    exact ⟨rfl, rfl⟩
  choose name c condition yes no hc hbehaviour := by
    rw [meaning_call hc, hbehaviour]
    simp only [runOn_choose]
    rfl

section Unique

variable {m m' : Term → Traced (String × Nat) EvalError Value}

theorem runOn_congr {arguments : List Term} (h : ∀ a ∈ arguments, m a = m' a) (b : Behaviour) (name : String)
    (values : List Value) : runOn m b name values arguments = runOn m' b name values arguments := by
  rw [runOn, runOn]
  congr 1
  funext i
  exact h _ (List.getElem_mem _)

/-- A call: the values of its arguments, if they are wanted, then the function. -/
theorem Compositional.call_eq (h : env.Compositional m) {name : String} {c : Callable}
    (hc : env.registry.get? name = some c) (arguments : List Term) :
    m (.call name arguments) = (do
      let values ← c.behaviour.strategy.gather m arguments
      .emit (name, values.length)
      runOn m c.behaviour name values arguments) := by
  cases hstrategy : c.behaviour.strategy with
  | lazy =>
    obtain ⟨hresult, htrace⟩ := h.lazy name c arguments hc hstrategy
    exact Traced.ext hresult htrace
  | eager =>
    rw [Strategy.gather]
    rcases Traced.values_or_error m arguments with ⟨values, hvalues⟩ | ⟨before, values, a, e, after, rfl, hvalues, he⟩
    · obtain ⟨hresult, htrace⟩ := h.eager_ok name c arguments values hc hstrategy hvalues
      rw [Traced.mapM_of_ok hvalues, Traced.bind_of_ok rfl, Traced.bind_of_ok rfl]
      exact Traced.ext hresult htrace
    · obtain ⟨hresult, htrace⟩ := h.eager_error name c before values a e after hc hstrategy hvalues he
      rw [Traced.mapM_of_error hvalues he, Traced.bind_of_error rfl]
      exact Traced.ext hresult htrace

/-- The meanings of the arguments decide that of the call. -/
theorem Compositional.call_congr (h : env.Compositional m) (h' : env.Compositional m') {name : String}
    {arguments : List Term} (harguments : ∀ a ∈ arguments, m a = m' a) :
    m (.call name arguments) = m' (.call name arguments) := by
  cases hc : env.registry.get? name with
  | none => rw [h.undefined name arguments hc, h'.undefined name arguments hc]
  | some c =>
    rw [h.call_eq hc, h'.call_eq hc, Strategy.gather_congr _ harguments]
    simp only [runOn_congr harguments]

mutual

/-- Nothing else is compositional. -/
theorem Compositional.unique (h : env.Compositional m) (h' : env.Compositional m') : ∀ term, m term = m' term
  | .literal content => by rw [h.literal, h'.literal]
  | .variable name => by
    cases hname : env.resolve name with
    | none => rw [h.unbound name hname, h'.unbound name hname]
    | some value => rw [h.bound name value hname, h'.bound name value hname]
  | .missing t => by rw [h.missing, h'.missing]
  | .call _ arguments => h.call_congr h' (Compositional.unique_all h h' arguments)

theorem Compositional.unique_all (h : env.Compositional m) (h' : env.Compositional m') :
    ∀ terms : List Term, ∀ a ∈ terms, m a = m' a
  | [] => fun _ ha => absurd ha List.not_mem_nil
  | term :: terms => List.forall_mem_cons.mpr ⟨Compositional.unique h h' term, Compositional.unique_all h h' terms⟩

end

/-- **There is one compositional meaning.** -/
theorem compositional_iff : env.Compositional m ↔ m = env.meaning := by
  constructor
  · exact fun h => funext (h.unique compositional_meaning)
  · rintro rfl
    exact compositional_meaning

end Unique

/-! ## Every store -/

/-- **Evaluation follows the meaning of terms.** In an environment of builtin functions and of functions that see
values only, there is one compositional meaning, and each token is evaluated to the meaning of its term. So tokens
with the same term cannot be told apart, whatever their stores are. -/
theorem evaluateAt_eq_meaning (env : Environment)
    (hregistry : ∀ name c, env.registry.get? name = some c →
      (∃ b : Builtin, c.behaviour = b.behaviour) ∨ c.behaviour.Blind) :
    (∀ m, env.Compositional m ↔ m = env.meaning) ∧
      (∀ s t term, s.Unfolds t term → (env.evaluateAt s t).filterTrace EvalEvent.dispatch? = env.meaning term) ∧
      ∀ s s' t t' term, s.Unfolds t term → s'.Unfolds t' term →
        (env.evaluateAt s t).filterTrace EvalEvent.dispatch? =
          (env.evaluateAt s' t').filterTrace EvalEvent.dispatch? := by
  have hblind : env.registry.Blind := by
    intro name c hc
    rcases hregistry name c hc with ⟨b, hb⟩ | h
    · exact hb ▸ b.blind_behaviour
    · exact h
  have heval : ∀ s t term, s.Unfolds t term →
      (env.evaluateAt s t).filterTrace EvalEvent.dispatch? = env.meaning term :=
    fun _ _ _ h => filterTrace_evaluateAt hblind h
  exact ⟨fun _ => compositional_iff, heval, fun s s' t t' term h h' =>
    (heval s t term h).trans (heval s' t' term h').symm⟩

/-- The call `or(nothing(#9), if(x, 'a', #9))` in two stores: the function `or` tries its second argument, as there is
none of the name `nothing`. -/
theorem evaluateAt_eq_meaning_or :
    let env : Environment := ⟨(Registry.withBuiltins.enroll [⟨"or", .attempt, none⟩]).1, fun name => some (.text name)⟩
    let s : Store := ⟨#[.variable "x", .literal "a", .call "if" [⟨0⟩, ⟨1⟩, ⟨9⟩], .call "nothing" [⟨9⟩],
      .call "or" [⟨3⟩, ⟨2⟩]]⟩
    let s' : Store := ⟨#[.call "nothing" [⟨9⟩], .literal "a", .variable "x", .call "if" [⟨2⟩, ⟨1⟩, ⟨9⟩], .literal "b",
      .call "or" [⟨0⟩, ⟨3⟩]]⟩
    (env.evaluateAt s ⟨4⟩).filterTrace EvalEvent.dispatch? = (env.evaluateAt s' ⟨5⟩).filterTrace EvalEvent.dispatch? ∧
      (env.evaluateAt s ⟨4⟩).filterTrace EvalEvent.dispatch? = ⟨.ok (.text "a"), [("or", 0), ("if", 0)]⟩ := by
  intro env s s'
  have hregistry : ∀ name c, env.registry.get? name = some c →
      (∃ b : Builtin, c.behaviour = b.behaviour) ∨ c.behaviour.Blind := by
    intro name c hc
    rcases Registry.get?_registerAll hc with hmem | hget
    · obtain rfl := List.mem_singleton.mp hmem
      exact Or.inr (Stock.blind_behaviour (x := .attempt) nofun)
    · obtain ⟨b, rfl⟩ := Registry.builtin_of_get?_withBuiltins hget
      exact Or.inl ⟨b, rfl⟩
  obtain ⟨-, hmeaning, hsame⟩ := evaluateAt_eq_meaning env hregistry
  exact ⟨hsame s s' ⟨4⟩ ⟨5⟩ _ ⟨4, rfl⟩ ⟨4, rfl⟩, (hmeaning s ⟨4⟩ _ ⟨4, rfl⟩).trans rfl⟩

end Environment

end CallExpr

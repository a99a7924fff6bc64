import CallExpr.Proofs.Blindness
import CallExpr.Proofs.Walk

/-!
# The order in which calls are carried out

* `Script.Direct`, `Registry.Direct`: functions that evaluate no tokens themselves and get the values of all arguments.
* `Environment.Yields`: the value of a token, said by rules. A call has a value if its arguments have values, for which
  its function returns one (`Environment.Returns`).
* `Point.Holds`, `Point.Fails`: whether a walk gets past a point, and with which error it ends there.
* `Environment.Follows`: a computation goes from point to point, up to the first that fails. Computations one after
  the other do (`Environment.Follows.bind`, `Environment.Follows.mapM`), and so does an evaluation
  (`Environment.follows_evaluateWithin`).
* `Environment.evaluateAll_dispatched`: the calls that are carried out in the evaluation of a source.
-/

namespace CallExpr

/-- The call that an event carries out. -/
def EvalEvent.executed? : EvalEvent → Option Token
  | dispatched call _ _ => some call
  | _ => none

/-! ## Functions that evaluate nothing -/

/-- The script evaluates no argument. -/
def Script.Direct {n : Nat} : Script n → Prop
  | .done _ => True
  | .note _ next => next.Direct
  | .inspect _ next => ∀ t e, (next t e).Direct
  | .evaluate _ _ => False

/-- Every function gets the values of its arguments, and evaluates no token itself. -/
def Registry.Direct (r : Registry) : Prop :=
  ∀ name c, r.get? name = some c →
    c.behaviour.strategy = .eager ∧ ∀ name values n, (c.behaviour.run name values n).Direct

/-- A direct script does the same however arguments are evaluated, and carries out no calls. -/
theorem Script.Direct.run_eq {n : Nat} {script : Script n} (h : script.Direct)
    (inspect : Fin n → Token × Option Entry) (evaluate evaluate' : Fin n → Traced EvalEvent EvalError Value) :
    script.run inspect evaluate = script.run inspect evaluate' ∧
      (script.run inspect evaluate).trace.filterMap EvalEvent.executed? = [] := by
  induction script with
  | done result => exact ⟨rfl, rfl⟩
  | note report next ih =>
    obtain ⟨hsame, htrace⟩ := ih h
    rw [run, run, Traced.bind_of_ok (a := ()) rfl, Traced.bind_of_ok (a := ()) rfl, hsame]
    exact ⟨rfl, by rw [← hsame]; exact htrace⟩
  | inspect i next ih => exact ih _ _ (h _ _)
  | evaluate i next _ => exact h.elim

/-- A stock function that gets the values of its arguments evaluates nothing itself. -/
theorem Stock.direct_behaviour {x : Stock} (h : x.behaviour.strategy = .eager) (name : String) (values : List Value)
    (n : Nat) : (x.behaviour.run name values n).Direct := by
  cases x with
  | nth | quote | attempt | reverse => cases h
  | builtin b =>
    cases b with
    | choose => cases h
    | add | mul | sub | div | concat | eq => trivial
  | const | count | name | echo | fail | log | types | join => trivial

/-- A registry of stock functions that get the values of their arguments. -/
theorem Registry.direct_enroll {registrations : List Registration}
    (h : ∀ x ∈ registrations, x.stock.behaviour.strategy = .eager) : (empty.enroll registrations).1.Direct := by
  intro name c hc
  rcases get?_registerAll hc with hmem | hget
  · rw [List.map_map] at hmem
    obtain ⟨x, hx, rfl⟩ := List.mem_map.mp hmem
    exact ⟨h x hx, Stock.direct_behaviour (h x hx)⟩
  · cases hget

/-- What a function sees of an argument without evaluating it. -/
def Store.inspect (s : Store) (arguments : List Token) (i : Fin arguments.length) : Token × Option Entry :=
  (arguments.get i, s.get? (arguments.get i))

namespace Environment

variable (env : Environment) (s : Store)

/-! ## What a point gives -/

/-- The function of the call returns the result for these values. It does so whatever its arguments would be evaluated
to. -/
def Returns (call : Token) (values : List Value) (result : Except EvalError Value) : Prop :=
  ∃ name arguments c, s.get? call = some (.call name arguments) ∧ env.registry.get? name = some c ∧
    ∀ evaluate, ((c.behaviour.run name values arguments.length).run (s.inspect arguments) evaluate).result = result

/-- The token has the value. -/
inductive Yields : Token → Value → Prop
  | literal {t : Token} {content : String} : s.get? t = some (.literal content) → Yields t (.text content)
  | variable {t : Token} {name : String} {value : Value} :
    s.get? t = some (.variable name) → env.resolve name = some value → Yields t value
  | call {t : Token} {name : String} {arguments : List Token} {values : List Value} {value : Value} :
    s.get? t = some (.call name arguments) → List.Forall₂ Yields arguments values →
    env.Returns s t values (.ok value) → Yields t value

end Environment

namespace Point

variable (env : Environment) (s : Store)

/-- The walk gets past the point. -/
inductive Holds : Point → Prop
  | leaf {t : Token} {value : Value} : env.Yields s t value → Holds (.leaf t)
  | lookUp {call : Token} {name : String} {arguments : List Token} {c : Callable} :
    s.get? call = some (.call name arguments) → env.registry.get? name = some c → Holds (.lookUp call)
  | execute {call : Token} {value : Value} : env.Yields s call value → Holds (.execute call)

/-- The walk ends at the point with the error. -/
inductive Fails : Point → EvalError → Prop
  | dangling {t : Token} : s.get? t = none → Fails (.leaf t) (.dangling t)
  | unbound {t : Token} {name : String} :
    s.get? t = some (.variable name) → env.resolve name = none → Fails (.leaf t) (.unbound name)
  | undefined {call : Token} {name : String} {arguments : List Token} :
    s.get? call = some (.call name arguments) → env.registry.get? name = none →
    Fails (.lookUp call) (.undefined name)
  /-- The function gets the values of its arguments, and returns the error. -/
  | returned {call : Token} {name : String} {arguments : List Token} {values : List Value} {e : EvalError} :
    s.get? call = some (.call name arguments) → List.Forall₂ (env.Yields s) arguments values →
    env.Returns s call values (.error e) → Fails (.execute call) e

end Point

namespace Environment

variable {env : Environment} {s : Store} {α β : Type} {ps qs : List Point} {p : Point}
  {x : Traced EvalEvent EvalError α} {f : α → Traced EvalEvent EvalError β} {P : α → Prop} {Q : β → Prop}
  {t : Token} {depth : Nat}

/-! ## From point to point -/

/-- The computation goes from point to point. If it gets past all of them it has a value with the property; else its
error is that of the first point that fails. It carries out the calls at the points that it comes to. -/
inductive Follows (env : Environment) (s : Store) (ps : List Point) (x : Traced EvalEvent EvalError α)
    (P : α → Prop) : Prop
  | ok {a : α} : x.result = .ok a → P a → (∀ p ∈ ps, p.Holds env s) →
    x.trace.filterMap EvalEvent.executed? = ps.filterMap Point.executed? → Follows env s ps x P
  | error {e : EvalError} {before after : List Point} {p : Point} : x.result = .error e → ps = before ++ p :: after →
    (∀ q ∈ before, q.Holds env s) → p.Fails env s e →
    x.trace.filterMap EvalEvent.executed? = (before ++ [p]).filterMap Point.executed? → Follows env s ps x P

theorem Follows.pure {a : α} (ha : P a) : env.Follows s [] (pure a) P :=
  .ok rfl ha (by simp) rfl

/-- One computation after the other follows the points of both. -/
theorem Follows.bind (h : env.Follows s ps x P) (hf : ∀ a, P a → env.Follows s qs (f a) Q) :
    env.Follows s (ps ++ qs) (x >>= f) Q := by
  cases h with
  | @ok a hx ha hholds htrace =>
    cases hf a ha with
    | @ok b hy hb hholds' htrace' =>
      refine .ok (a := b) ?_ hb (List.forall_mem_append.mpr ⟨hholds, hholds'⟩) ?_
      · rw [Traced.bind_of_ok hx, hy]
      · rw [Traced.bind_of_ok hx, List.filterMap_append, htrace, htrace', List.filterMap_append]
    | @error e before after p hy hsplit hholds' hfails htrace' =>
      have hsplit' : ps ++ qs = ps ++ before ++ p :: after := by rw [hsplit, List.append_assoc]
      refine .error ?_ hsplit' (List.forall_mem_append.mpr ⟨hholds, hholds'⟩) hfails ?_
      · rw [Traced.bind_of_ok hx, hy]
      · rw [Traced.bind_of_ok hx, List.filterMap_append, htrace, htrace', List.append_assoc, ← List.filterMap_append]
  | @error e before after p hx hsplit hholds hfails htrace =>
    have hsplit' : ps ++ qs = before ++ p :: (after ++ qs) := by rw [hsplit, List.append_assoc, List.cons_append]
    refine .error ?_ hsplit' hholds hfails ?_
    · rw [Traced.bind_of_error hx]
    · rw [Traced.bind_of_error hx, htrace]

/-- So it is with one computation for each token of a list. -/
theorem Follows.mapM {walk : Token → List Point} {value : Token → Traced EvalEvent EvalError α}
    {R : Token → α → Prop} {tokens : List Token} (h : ∀ t ∈ tokens, env.Follows s (walk t) (value t) (R t)) :
    env.Follows s (tokens.flatMap walk) (tokens.mapM value) (List.Forall₂ R tokens) := by
  induction tokens with
  | nil => exact .pure .nil
  | cons t tokens ih =>
    obtain ⟨ht, htokens⟩ := List.forall_mem_cons.mp h
    rw [List.flatMap_cons, List.mapM_cons]
    refine ht.bind fun a ha => ?_
    rw [← List.append_nil (tokens.flatMap walk)]
    exact (ih htokens).bind fun values hvalues => .pure (.cons ha hvalues)

/-- A point without a call to carry out, and then the others. -/
theorem Follows.cons (hp : p.Holds env s) (hexecuted : p.executed? = none) (h : env.Follows s ps x P) :
    env.Follows s (p :: ps) x P := by
  cases h with
  | @ok a hx ha hholds htrace =>
    exact .ok hx ha (List.forall_mem_cons.mpr ⟨hp, hholds⟩) (by rw [List.filterMap_cons_none hexecuted, htrace])
  | @error e before after q hx hsplit hholds hfails htrace =>
    have hsplit' : p :: ps = p :: before ++ q :: after := by rw [hsplit, List.cons_append]
    refine .error hx hsplit' (List.forall_mem_cons.mpr ⟨hp, hholds⟩) hfails ?_
    rw [List.cons_append, List.filterMap_cons_none hexecuted, htrace]

/-- The only point of a computation fails. -/
theorem Follows.fail {e : EvalError} (hexecuted : x.trace.filterMap EvalEvent.executed? = [p].filterMap Point.executed?)
    (hx : x.result = .error e) (hfails : p.Fails env s e) (after : List Point) : env.Follows s (p :: after) x P :=
  .error hx (List.nil_append _).symm (by simp) hfails hexecuted

/-! ## An evaluation -/

/-- The function of a call runs. -/
theorem follows_execute (hdirect : env.registry.Direct) {name : String} {arguments : List Token} {values : List Value}
    {c : Callable} (ht : s.get? t = some (.call name arguments)) (hc : env.registry.get? name = some c)
    (hvalues : List.Forall₂ (env.Yields s) arguments values)
    (evaluate : Fin arguments.length → Traced EvalEvent EvalError Value) :
    env.Follows s [.execute t] (do
      .emit (.dispatched t name values.length)
      (c.behaviour.run name values arguments.length).run (s.inspect arguments) evaluate)
      (env.Yields s t) := by
  have hscript := (hdirect name c hc).2 name values arguments.length
  have hreturns : env.Returns s t values
      ((c.behaviour.run name values arguments.length).run (s.inspect arguments) evaluate).result :=
    ⟨name, arguments, c, ht, hc, fun evaluate' => by rw [(hscript.run_eq _ evaluate' evaluate).1]⟩
  have htrace := (hscript.run_eq (s.inspect arguments) evaluate evaluate).2
  rw [Traced.bind_of_ok (a := ()) rfl]
  generalize (c.behaviour.run name values arguments.length).run (s.inspect arguments) evaluate = run
    at hreturns htrace ⊢
  have hexecuted : ([EvalEvent.dispatched t name values.length] ++ run.trace).filterMap EvalEvent.executed? =
      [Point.execute t].filterMap Point.executed? := by
    rw [List.filterMap_append, htrace]
    rfl
  cases hresult : run.result with
  | ok value =>
    rw [hresult] at hreturns
    have hyields : env.Yields s t value := .call ht hvalues hreturns
    exact .ok rfl hyields (List.forall_mem_singleton.mpr (.execute hyields)) hexecuted
  | error e =>
    rw [hresult] at hreturns
    exact .fail hexecuted rfl (.returned ht hvalues hreturns) []

/-- A call: its function is looked up, then come the arguments, then the function runs. -/
theorem follows_call (hdirect : env.registry.Direct) {name : String} {arguments : List Token}
    (ht : s.get? t = some (.call name arguments))
    (harguments : ∀ u ∈ arguments,
      env.Follows s (s.walkWithin depth u) (env.evaluateWithin s depth u) (env.Yields s u)) :
    env.Follows s (s.walkWithin (depth + 1) t) (env.evaluateWithin s (depth + 1) t) (env.Yields s t) := by
  rw [Store.walkWithin_of_call ht, evaluateWithin, ht]
  dsimp only
  cases hc : env.registry.get? name with
  | none => exact .fail rfl rfl (.undefined ht hc) _
  | some c =>
    dsimp only
    rw [(hdirect name c hc).1, Strategy.gather]
    refine .cons (.lookUp ht hc) rfl ((Follows.mapM harguments).bind fun values hvalues => ?_)
    exact follows_execute hdirect ht hc hvalues _

/-- **An evaluation goes from point to point**, if the references of the token end. -/
theorem follows_evaluateWithin (hdirect : env.registry.Direct) {term : Term}
    (h : s.unfoldWithin depth t = some term) :
    env.Follows s (s.walkWithin depth t) (env.evaluateWithin s depth t) (env.Yields s t) := by
  induction depth generalizing t term with
  | zero => cases h
  | succ depth ih =>
    cases ht : s.get? t with
    | none =>
      rw [Store.walkWithin_of_not_call (by simp [ht]), evaluateWithin, ht]
      exact .fail rfl rfl (.dangling ht) _
    | some e =>
      cases e with
      | literal content =>
        have hyields : env.Yields s t (.text content) := .literal ht
        rw [Store.walkWithin_of_not_call (by simp [ht]), evaluateWithin, ht]
        exact .ok rfl hyields (List.forall_mem_singleton.mpr (.leaf hyields)) rfl
      | «variable» name =>
        rw [Store.walkWithin_of_not_call (by simp [ht]), evaluateWithin, ht]
        dsimp only
        cases hname : env.resolve name with
        | none => exact .fail rfl rfl (.unbound ht hname) _
        | some value =>
          have hyields : env.Yields s t value := .variable ht hname
          exact .ok rfl hyields (List.forall_mem_singleton.mpr (.leaf hyields)) rfl
      | call name arguments =>
        refine follows_call hdirect ht fun u hu => ?_
        obtain ⟨term, hterm⟩ := Store.exists_unfoldWithin_of_refers h ⟨_, ht, hu⟩
        exact ih hterm

/-- So does the evaluation of a forest. -/
theorem follows_evaluateAll (hdirect : env.registry.Direct) {forest : Forest} (hordered : forest.store.Ordered)
    (hstored : ∀ u ∈ forest.roots, u.index < forest.store.size) :
    env.Follows forest.store forest.walk (env.evaluateAll forest)
      (List.Forall₂ (env.Yields forest.store) forest.roots) := by
  refine Follows.mapM fun t ht => ?_
  have hlt := hstored t ht
  exact follows_evaluateWithin hdirect (hordered.unfoldWithin_of_lt (Nat.le_of_lt hlt) (Nat.lt_succ_of_lt hlt))

/-- The calls that a computation carries out are the first ones of those on its way. -/
theorem Follows.executed_prefix (h : env.Follows s ps x P) :
    x.trace.filterMap EvalEvent.executed? <+: ps.filterMap Point.executed? := by
  cases h with
  | ok _ _ _ htrace => exact htrace ▸ List.prefix_rfl
  | @error e before after p _ hsplit _ _ htrace =>
    rw [htrace, hsplit]
    exact List.IsPrefix.filterMap _ ⟨after, by simp⟩

/-! ## Nothing else is the first point that fails -/

theorem Returns.unique {values : List Value} {r r' : Except EvalError Value} (h : env.Returns s t values r)
    (h' : env.Returns s t values r') : r = r' := by
  obtain ⟨name, arguments, c, ht, hc, hr⟩ := h
  obtain ⟨name', arguments', c', ht', hc', hr'⟩ := h'
  rw [ht] at ht'
  obtain ⟨rfl, rfl⟩ := Entry.call.inj (Option.some.inj ht')
  rw [hc] at hc'
  obtain rfl := Option.some.inj hc'
  exact (hr fun _ => .fail (.dangling t)).symm.trans (hr' fun _ => .fail (.dangling t))

theorem unique_of_forall₂ {R : Token → Value → Prop} {tokens : List Token} {values values' : List Value}
    (hR : ∀ t ∈ tokens, ∀ v v', R t v → R t v' → v = v') (h : List.Forall₂ R tokens values)
    (h' : List.Forall₂ R tokens values') : values = values' := by
  induction h generalizing values' with
  | nil => cases h'; rfl
  | cons hfirst _ ih =>
    cases h' with
    | cons hfirst' hrest' =>
      obtain ⟨ht, htokens⟩ := List.forall_mem_cons.mp hR
      rw [ht _ _ hfirst hfirst', ih htokens hrest']

section Entries

variable {value value' : Value} {name content : String} {arguments : List Token}

theorem yields_iff_of_literal (ht : s.get? t = some (.literal content)) :
    env.Yields s t value ↔ value = .text content := by
  constructor
  · intro h
    cases h with
    | literal ht' => rw [ht] at ht'; cases ht'; rfl
    | _ ht' => rw [ht] at ht'; cases ht'
  · rintro rfl
    exact .literal ht

theorem yields_iff_of_variable (ht : s.get? t = some (.variable name)) :
    env.Yields s t value ↔ env.resolve name = some value := by
  constructor
  · intro h
    cases h with
    | «variable» ht' hvalue => rw [ht] at ht'; cases ht'; exact hvalue
    | _ ht' => rw [ht] at ht'; cases ht'
  · exact .variable ht

theorem yields_iff_of_call (ht : s.get? t = some (.call name arguments)) :
    env.Yields s t value ↔
      ∃ values, List.Forall₂ (env.Yields s) arguments values ∧ env.Returns s t values (.ok value) := by
  constructor
  · intro h
    cases h with
    | call ht' hvalues hreturns => rw [ht] at ht'; cases ht'; exact ⟨_, hvalues, hreturns⟩
    | _ ht' => rw [ht] at ht'; cases ht'
  · rintro ⟨values, hvalues, hreturns⟩
    exact .call ht hvalues hreturns

theorem not_yields_of_none (ht : s.get? t = none) : ¬ env.Yields s t value := by
  intro h
  cases h <;> simp_all

/-- In an ordered store a token has one value. -/
theorem Yields.unique (hs : s.Ordered) (h : env.Yields s t value) (h' : env.Yields s t value') : value = value' := by
  induction hn : t.index using Nat.strongRecOn generalizing t value value' with
  | ind n ih =>
    cases h with
    | literal ht => exact ((yields_iff_of_literal ht).mp h').symm
    | «variable» ht hvalue => exact Option.some.inj (hvalue.symm.trans ((yields_iff_of_variable ht).mp h'))
    | @call _ name arguments values _ ht hvalues hreturns =>
      obtain ⟨values', hvalues', hreturns'⟩ := (yields_iff_of_call ht).mp h'
      have hunique : ∀ u ∈ arguments, ∀ v v', env.Yields s u v → env.Yields s u v' → v = v' :=
        fun u hu v v' hv hv' => ih u.index (hn ▸ hs t _ ht u hu) hv hv' rfl
      rw [unique_of_forall₂ hunique hvalues hvalues'] at hreturns
      exact Except.ok.inj (hreturns.unique hreturns')

end Entries

end Environment

namespace Point

variable {env : Environment} {s : Store} {p : Point}

/-- The walk does not end at a point that it gets past. -/
theorem Holds.not_fails (hs : s.Ordered) (h : p.Holds env s) (e : EvalError) : ¬ p.Fails env s e := by
  intro hfails
  cases hfails with
  | dangling ht =>
    cases h with
    | leaf hyields => exact Environment.not_yields_of_none ht hyields
  | unbound ht hname =>
    cases h with
    | leaf hyields =>
      rw [Environment.yields_iff_of_variable ht, hname] at hyields
      cases hyields
  | undefined ht hc =>
    cases h with
    | lookUp ht' hc' =>
      rw [ht] at ht'
      cases ht'
      rw [hc] at hc'
      cases hc'
  | @returned _ _ arguments _ _ ht hvalues hreturns =>
    cases h with
    | execute hyields =>
      obtain ⟨values', hvalues', hreturns'⟩ := (Environment.yields_iff_of_call ht).mp hyields
      have hunique : ∀ u ∈ arguments, ∀ v v', env.Yields s u v → env.Yields s u v' → v = v' :=
        fun u _ v v' => Environment.Yields.unique hs
      rw [Environment.unique_of_forall₂ hunique hvalues hvalues'] at hreturns
      cases hreturns.unique hreturns'

end Point

namespace Environment

variable {d : Dialect} {source : String} {forest : Forest}

/-- **The order in which the calls of a source are carried out.** If each function gets the values of its arguments and
evaluates nothing itself, then the calls are carried out in postorder, and none of them twice. If all expressions have
values then so are all calls of the source. Else the error is that of the first point of the walk that fails, and no
call after that point is carried out. -/
theorem evaluateAll_dispatched (h : (d.read source).result = .ok forest) (env : Environment)
    (hdirect : env.registry.Direct) :
    let executed := (env.evaluateAll forest).trace.filterMap EvalEvent.executed?
    (forest.calls.Nodup ∧
      ∀ t, t ∈ forest.calls ↔ ∃ name arguments, forest.store.get? t = some (.call name arguments)) ∧
    executed <+: forest.calls ∧ executed.Nodup ∧
    (∀ values, (env.evaluateAll forest).result = .ok values →
      executed = forest.calls ∧ List.Forall₂ (env.Yields forest.store) forest.roots values) ∧
    forest.walk.filterMap Point.executed? = forest.calls ∧
    ∀ e, (env.evaluateAll forest).result = .error e → ∃ before p after, forest.walk = before ++ p :: after ∧
      (∀ q ∈ before, q.Holds env forest.store ∧ ∀ e', ¬ q.Fails env forest.store e') ∧
      p.Fails env forest.store e ∧ executed = (before ++ [p]).filterMap Point.executed? := by
  intro executed
  obtain ⟨-, lexemes, terms, hscan, hterms, -, hforest⟩ := Dialect.read_eq_ok_iff.mp h
  have hlinear : forest.Linear := hforest ▸ Forest.linear_ofTerms (tokensAll_of_readTerms hscan hterms)
  have hfollows := follows_evaluateAll hdirect hlinear.ordered fun u hu => hlinear.stored u (List.mem_append_left _ hu)
  have hprefix : executed <+: forest.calls := forest.filterMap_walk ▸ hfollows.executed_prefix
  refine ⟨⟨hlinear.nodup_calls, fun t => hlinear.mem_calls_iff⟩, hprefix,
    hlinear.nodup_calls.sublist hprefix.sublist, fun values hvalues => ?_, forest.filterMap_walk, fun e he => ?_⟩
  · cases hfollows with
    | ok hresult hyields _ htrace =>
      rw [hvalues] at hresult
      cases hresult
      exact ⟨htrace.trans forest.filterMap_walk, hyields⟩
    | error hresult =>
      rw [hvalues] at hresult
      cases hresult
  · cases hfollows with
    | ok hresult =>
      rw [he] at hresult
      cases hresult
    | @error e' before after p hresult hsplit hholds hfails htrace =>
      rw [he] at hresult
      cases hresult
      exact ⟨before, p, after, hsplit, fun q hq => ⟨hholds q hq, (hholds q hq).not_fails hlinear.ordered⟩, hfails,
        htrace⟩

/-- The second call of `stop` and the variable `x` after it are not reached, nor is any call around them. -/
theorem evaluateAll_dispatched_stop :
    let env : Environment :=
      ⟨(Registry.empty.enroll [⟨"f", .log, none⟩, ⟨"stop", .fail "no", none⟩]).1, fun _ => none⟩
    let forest : Forest := ⟨⟨#[.literal "a", .call "f" [⟨0⟩], .call "stop" [], .call "stop" [], .variable "x",
      .call "f" [⟨3⟩, ⟨4⟩], .call "f" [⟨1⟩, ⟨2⟩, ⟨5⟩]]⟩, [⟨6⟩]⟩
    let executed := (env.evaluateAll forest).trace.filterMap EvalEvent.executed?
    (({} : Dialect).read "f(f('a'), stop(), f(stop(), x))").result = .ok forest ∧
      forest.calls = [⟨1⟩, ⟨2⟩, ⟨3⟩, ⟨5⟩, ⟨6⟩] ∧ executed = [⟨1⟩, ⟨2⟩] ∧ executed <+: forest.calls ∧
      ∃ before p after, forest.walk = before ++ p :: after ∧ p.Fails env forest.store (.failed (.custom "no")) := by
  intro env forest executed
  have hread : (({} : Dialect).read "f(f('a'), stop(), f(stop(), x))").result = .ok forest := by decide
  have hdirect : env.registry.Direct := Registry.direct_enroll (by decide)
  have herror : (env.evaluateAll forest).result = .error (.failed (.custom "no")) := rfl
  obtain ⟨-, hprefix, -, -, -, hfails⟩ := evaluateAll_dispatched hread env hdirect
  obtain ⟨before, p, after, hsplit, -, hfail, -⟩ := hfails _ herror
  exact ⟨hread, by decide, by decide, hprefix, before, p, after, hsplit, hfail⟩

end Environment

end CallExpr

import CallExpr.Proofs.ErrorSources
import CallExpr.Proofs.NestingLimit
import Mathlib.Logic.Function.Iterate

/-!
# Nested activations

A recursive function on tokens is iterated from one activation of it, `once`, which takes what the nested activations
give. Then `once^[n] nested t` makes at most `n` nested activations, and leaves what is below them to `nested`.

* `Store.Descends`: an activation only needs the nested activations of the tokens that its entry refers to.
* `Store.Descends.iterate_eq`: if the term of a token has at most `n` levels, then `n` nested activations are enough,
  and no use is made of what would be below them.
* `Store.writeOnce`, `Environment.evaluateOnce`: one activation of writing, and one of evaluating.
* `Store.length_le_of_isChain`: no chain of references is longer than the term has levels.
* `Dialect.read_nesting`: the limit of a source bounds the chains of references in its forest, and the nested
  activations of writing and of evaluating it.
-/

namespace CallExpr

namespace Store

variable {s : Store} {t u : Token} {term : Term} {m n : Nat}

/-- No chain of references is longer than the term has levels. -/
theorem length_le_of_isChain (hterm : s.unfoldWithin n t = some term) {chain : List Token}
    (h : (t :: chain).IsChain s.Refers) : (t :: chain).length ≤ n := by
  induction chain generalizing n t term with
  | nil =>
    cases n with
    | zero => cases hterm
    | succ n => simp
  | cons u chain ih =>
    obtain ⟨hu, hchain⟩ := List.isChain_cons_cons.mp h
    cases n with
    | zero => cases hterm
    | succ n =>
      obtain ⟨term', hterm'⟩ := exists_unfoldWithin_of_refers hterm hu
      have := ih hterm' hchain
      simp only [List.length_cons] at this ⊢
      omega

/-! ## Levels of terms -/

theorem mapM_unfoldWithin_of_heights_lt {ts : List Token} {terms : List Term}
    (h : ∀ t term, s.unfoldWithin m t = some term → term.height < n → s.unfoldWithin n t = some term)
    (hterms : ts.mapM (s.unfoldWithin m) = some terms) (hlt : Term.heights terms < n) :
    ts.mapM (s.unfoldWithin n) = some terms := by
  induction ts generalizing terms with
  | nil => exact hterms
  | cons t ts ih =>
    obtain ⟨term, hterm, rest, hrest, rfl⟩ := mapM_cons_eq_some_iff.mp hterms
    rw [Term.heights] at hlt
    exact mapM_cons_eq_some_iff.mpr ⟨term, h t term hterm (by omega), rest, ih hrest (by omega), rfl⟩

/-- A term of a height below `n` has at most `n` levels. -/
theorem unfoldWithin_of_height_lt (hterm : s.unfoldWithin m t = some term) (hlt : term.height < n) :
    s.unfoldWithin n t = some term := by
  induction m generalizing n t term with
  | zero => cases hterm
  | succ m ih =>
    obtain ⟨n, rfl⟩ : ∃ k, n = k + 1 := ⟨n - 1, by omega⟩
    cases he : s.get? t with
    | none => rwa [unfoldWithin_of_none _ he] at hterm ⊢
    | some e =>
      rw [unfoldWithin_of_get? _ he] at hterm ⊢
      cases e with
      | literal | «variable» => exact hterm
      | call name arguments =>
        obtain ⟨terms, hterms, rfl⟩ := Option.map_eq_some_iff.mp hterm
        rw [Term.height] at hlt
        apply Option.map_eq_some_iff.mpr
        exact ⟨terms, mapM_unfoldWithin_of_heights_lt (fun _ _ => ih) hterms (by omega), rfl⟩

/-! ## Activations -/

/-- What an activation does with a token depends on the nested activations of the tokens that the entry of this token
refers to, and on no others. -/
def Descends {α : Type} (s : Store) (once : (Token → α) → Token → α) : Prop :=
  ∀ t f g, (∀ u, s.Refers t u → f u = g u) → once f t = once g t

/-- **As many nested activations as there are levels are enough.** More of them change nothing, and so does what is
below the last. -/
theorem Descends.iterate_eq {α : Type} {once : (Token → α) → Token → α} (h : s.Descends once) {term' : Term}
    (hm : s.unfoldWithin m t = some term) (hn : s.unfoldWithin n t = some term') (f g : Token → α) :
    once^[m] f t = once^[n] g t := by
  induction m generalizing n t term term' with
  | zero => cases hm
  | succ m ih =>
    cases n with
    | zero => cases hn
    | succ n =>
      rw [Function.iterate_succ_apply', Function.iterate_succ_apply']
      apply h
      intro u hu
      obtain ⟨_, hm'⟩ := exists_unfoldWithin_of_refers hm hu
      obtain ⟨_, hn'⟩ := exists_unfoldWithin_of_refers hn hu
      exact ih hm' hn'

/-- One activation of writing. -/
def writeOnce (s : Store) (delimiter : Char) (nested : Token → String) (t : Token) : String :=
  match s.get? t with
  | none => t.write
  | some (.literal content) => "'" ++ content ++ "'"
  | some (.variable name) => name
  | some (.call name arguments) =>
    name ++ "(" ++ (String.ofList [delimiter, ' ']).intercalate (arguments.map nested) ++ ")"

theorem writeWithin_eq_iterate (s : Store) (delimiter : Char) (n : Nat) :
    s.writeWithin delimiter n = (s.writeOnce delimiter)^[n] Token.write := by
  induction n with
  | zero => rfl
  | succ n ih =>
    rw [Function.iterate_succ_apply', ← ih]
    rfl

theorem descends_writeOnce (s : Store) (delimiter : Char) : s.Descends (s.writeOnce delimiter) := by
  intro t f g h
  unfold writeOnce
  cases he : s.get? t with
  | none => rfl
  | some e =>
    cases e with
    | literal content => rfl
    | «variable» name => rfl
    | call name arguments =>
      have hmap : arguments.map f = arguments.map g := List.map_congr_left fun u hu => h u ⟨_, he, hu⟩
      dsimp only
      rw [hmap]

theorem iterate_writeOnce (hterm : s.unfoldWithin n t = some term) (delimiter : Char) (nested : Token → String) :
    (s.writeOnce delimiter)^[n] nested t = s.write delimiter t := by
  rw [write, writeWithin_eq_iterate]
  exact (s.descends_writeOnce delimiter).iterate_eq hterm (Unfolds.within_size ⟨n, hterm⟩) _ _

end Store

/-- The chain of references that leads to the token was too long. -/
def EvalError.IsTooDeep (e : EvalError) : Prop :=
  ∃ t, e = .tooDeep t

namespace Environment

variable {s : Store} {t : Token} {term : Term} {n : Nat}

/-- One activation of evaluating. -/
def evaluateOnce (env : Environment) (s : Store) (nested : Token → Traced EvalEvent EvalError Value) (t : Token) :
    Traced EvalEvent EvalError Value :=
  match s.get? t with
  | none => .fail (.dangling t)
  | some (.literal content) => pure (.text content)
  | some (.variable name) => .ofExcept ((env.resolve name).elim (.error (.unbound name)) .ok)
  | some (.call name arguments) =>
    match env.registry.get? name with
    | none => .fail (.undefined name)
    | some callable => do
      let values ← callable.behaviour.strategy.gather nested arguments
      .emit (.dispatched t name values.length)
      (callable.behaviour.run name values arguments.length).run
        (fun i => (arguments.get i, s.get? (arguments.get i))) (fun i => nested (arguments.get i))

theorem evaluateWithin_eq_iterate (env : Environment) (s : Store) (n : Nat) :
    env.evaluateWithin s n = (env.evaluateOnce s)^[n] fun t => .fail (.tooDeep t) := by
  induction n with
  | zero => rfl
  | succ n ih =>
    rw [Function.iterate_succ_apply', ← ih]
    rfl

theorem descends_evaluateOnce (env : Environment) (s : Store) : s.Descends (env.evaluateOnce s) := by
  intro t f g h
  unfold evaluateOnce
  cases he : s.get? t with
  | none => rfl
  | some e =>
    cases e with
    | literal content => rfl
    | «variable» name => rfl
    | call name arguments =>
      have harguments : ∀ u ∈ arguments, f u = g u := fun u hu => h u ⟨_, he, hu⟩
      have hget : (fun i => f (arguments.get i)) = fun i => g (arguments.get i) :=
        funext fun i => harguments _ (List.get_mem _ _)
      dsimp only
      cases env.registry.get? name with
      | none => rfl
      | some c =>
        dsimp only
        rw [Strategy.gather_congr _ harguments, hget]

theorem iterate_evaluateOnce (env : Environment) (hterm : s.unfoldWithin n t = some term)
    (nested : Token → Traced EvalEvent EvalError Value) :
    (env.evaluateOnce s)^[n] nested t = env.evaluateAt s t := by
  rw [evaluateAt, evaluateWithin_eq_iterate]
  exact (env.descends_evaluateOnce s).iterate_eq hterm (Store.Unfolds.within_size ⟨n, hterm⟩) _ _

/-- The value of a token by one activation, from the values of the tokens that it refers to. -/
theorem evaluateAt_eq_evaluateOnce (env : Environment) (h : s.Unfolds t term) :
    env.evaluateAt s t = env.evaluateOnce s (env.evaluateAt s) t := by
  show env.evaluateOnce s (env.evaluateWithin s s.size) t = _
  apply env.descends_evaluateOnce s
  intro u hu
  obtain ⟨_, hterm⟩ := Store.exists_unfoldWithin_of_refers h.within_size hu
  rw [evaluateWithin_eq_iterate]
  exact env.iterate_evaluateOnce hterm _

end Environment

/-! ## The forest of a source -/

namespace Dialect

variable {d : Dialect} {source : String} {forest : Forest}

/-- No more levels are nested than the limit allows. -/
theorem exists_unfoldWithin_of_read (h : (d.read source).result = .ok forest) {root : Token}
    (hroot : root ∈ forest.roots) : ∃ term, forest.store.unfoldWithin d.maxDepth root = some term := by
  obtain ⟨terms, hunfolds⟩ := exists_unfolds_of_read h
  have hlt := heights_lt_of_read h hunfolds
  obtain ⟨depth, hterms⟩ := hunfolds
  have hlimit : forest.roots.mapM (forest.store.unfoldWithin d.maxDepth) = some terms :=
    Store.mapM_unfoldWithin_of_heights_lt (fun _ _ => Store.unfoldWithin_of_height_lt) hterms hlt
  exact exists_of_mapM_eq_some hlimit hroot

/-- **The limit of a source bounds all recursion on its forest.** Every chain of references from a root has at most as
many entries as the limit says. So no more activations of writing a root are nested, and no more of evaluating it,
whatever the functions are: what is below them is never needed. -/
theorem read_nesting (h : (d.read source).result = .ok forest) :
    ∀ root ∈ forest.roots,
      (∀ chain, (root :: chain).IsChain forest.store.Refers → (root :: chain).length ≤ d.maxDepth) ∧
      (∀ c nested, (forest.store.writeOnce c)^[d.maxDepth] nested root = forest.store.write c root) ∧
      ∀ env : Environment,
        (∀ nested, (env.evaluateOnce forest.store)^[d.maxDepth] nested root = env.evaluateAt forest.store root) ∧
        (env.registry.Avoids EvalError.IsTooDeep → ∀ t,
          (env.evaluateAt forest.store root).result ≠ .error (.tooDeep t)) := by
  intro root hroot
  obtain ⟨term, hterm⟩ := exists_unfoldWithin_of_read h hroot
  refine ⟨fun chain => Store.length_le_of_isChain hterm, fun c => Store.iterate_writeOnce hterm c, fun env =>
    ⟨env.iterate_evaluateOnce hterm, fun hfunctions t ht => ?_⟩⟩
  have havoids : (env.evaluateAt forest.store root).Avoids EvalError.IsTooDeep := by
    apply Environment.avoids_evaluateWithin hfunctions _ _ _ (Store.Unfolds.within_size ⟨_, hterm⟩)
    · rintro name ⟨t, ⟨⟩⟩
    · rintro name ⟨t, ⟨⟩⟩
    · rintro u - - ⟨t, ⟨⟩⟩
  exact havoids _ ht ⟨t, rfl⟩

/-- Twenty nested activations are enough by default. -/
theorem read_nesting_default : ∃ forest, (Dialect.read {} "g(f(x), 'a') y").result = .ok forest ∧
    forest.roots = [⟨3⟩, ⟨4⟩] ∧
    (∀ chain, (⟨3⟩ :: chain).IsChain forest.store.Refers → (⟨3⟩ :: chain : List Token).length ≤ 20) ∧
    ∀ nested, (forest.store.writeOnce ',')^[20] nested ⟨3⟩ = "g(f(x), 'a')" := by
  have hread : (Dialect.read {} "g(f(x), 'a') y").result =
      .ok ⟨⟨#[.literal "a", .variable "x", .call "f" [⟨1⟩], .call "g" [⟨2⟩, ⟨0⟩], .variable "y"]⟩, [⟨3⟩, ⟨4⟩]⟩ := rfl
  obtain ⟨hchain, hwrite, -⟩ := read_nesting hread ⟨3⟩ List.mem_cons_self
  exact ⟨_, hread, rfl, hchain, hwrite ','⟩

end Dialect

end CallExpr

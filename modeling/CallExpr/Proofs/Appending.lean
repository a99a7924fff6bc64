import CallExpr.Proofs.Activations
import CallExpr.Proofs.PassCounts

/-!
# Stores that are added to

* `Store.insertAll`: adds entries one after the other. It issues new tokens, and each stands for its entry
  (`Store.insertAll_snd`).
* `Store.Complete`: every token that is reached has an entry.
* `Store.Descends.iterate_eq_of_complete`: activations that look at entries alone do the same in both stores, if they
  start from such a token. So its text (`Store.Grows.write_eq`) and its value (`Store.Grows.evaluateAt_eq`) stay.
* `Store.insertAll_frame`: adding entries does not disturb the tokens issued before.
-/

namespace CallExpr

namespace Store

variable {s s' : Store} {t u : Token} {term : Term} {n : Nat}

/-! ## New entries -/

/-- Adds entries one after the other, and issues their tokens. -/
def insertAll (s : Store) : List Entry → Store × List Token
  | [] => (s, [])
  | e :: entries =>
    let (s, t) := s.insert e
    let (s, ts) := s.insertAll entries
    (s, t :: ts)

theorem insertAll_cons (s : Store) (e : Entry) (entries : List Entry) :
    s.insertAll (e :: entries) =
      (((s.insert e).1.insertAll entries).1, (s.insert e).2 :: ((s.insert e).1.insertAll entries).2) := rfl

theorem toList_insertAll (s : Store) (entries : List Entry) :
    (s.insertAll entries).1.toList = s.toList ++ entries := by
  induction entries generalizing s with
  | nil => exact (List.append_nil _).symm
  | cons e entries ih => rw [insertAll_cons, ih, toList_insert, List.append_assoc, List.singleton_append]

theorem grows_insertAll (s : Store) (entries : List Entry) : s.Grows (s.insertAll entries).1 :=
  ⟨entries, toList_insertAll s entries⟩

/-- The issued tokens are the new ones, in their order. -/
theorem insertAll_snd (s : Store) (entries : List Entry) :
    (s.insertAll entries).2 = s.newTokens (s.insertAll entries).1 := by
  induction entries generalizing s with
  | nil => exact (newTokens_self s).symm
  | cons e entries ih =>
    have hnew := (grows_insert s e).newTokens_append (grows_insertAll (s.insert e).1 entries)
    rw [newTokens_insert, List.singleton_append] at hnew
    rw [insertAll_cons, ih]
    exact hnew

theorem le_index_of_mem_newTokens (hu : u ∈ s.newTokens s') : s.size ≤ u.index := by
  obtain ⟨i, hi, rfl⟩ := List.mem_map.mp hu
  exact (List.mem_range'_1.mp hi).1

theorem nodup_newTokens (s s' : Store) : (s.newTokens s').Nodup :=
  List.Nodup.map (fun _ _ h => congrArg Token.index h) List.nodup_range'

/-! ## Tokens that reach nothing but entries -/

/-- Every token that is reached has an entry. -/
def Complete (s : Store) (t : Token) : Prop :=
  ∀ u, Relation.ReflTransGen s.Refers t u → s.contains u = true

theorem Complete.lt_size (h : s.Complete t) : t.index < s.size :=
  contains_iff.mp (h t .refl)

theorem Complete.of_refers (h : s.Complete t) (hu : s.Refers t u) : s.Complete u :=
  fun v hv => h v (.head hu hv)

/-- The larger store has the same term. -/
theorem Grows.unfoldWithin (hgrows : s.Grows s') (ht : s.Complete t) (hterm : s.unfoldWithin n t = some term) :
    s'.unfoldWithin n t = some term := by
  induction n generalizing t term with
  | zero => cases hterm
  | succ n ih =>
    obtain ⟨e, he⟩ := Option.isSome_iff_exists.mp (isSome_get?_iff.mpr ht.lt_size)
    rw [unfoldWithin_of_get? n he] at hterm
    rw [unfoldWithin_of_get? n ((hgrows.get? ht.lt_size).trans he)]
    exact Entry.term?_mono (fun u hu _ => ih (ht.of_refers ⟨e, he, hu⟩)) hterm

/-- **Two activations that agree on tokens with entries** do the same from a token on that reaches no others. -/
theorem Descends.iterate_eq_of_complete {α : Type} {once once' : (Token → α) → Token → α} (h : s.Descends once)
    (hsame : ∀ u, s.Complete u → ∀ f, once' f u = once f u) (ht : s.Complete t) (n : Nat) (f : Token → α) :
    once'^[n] f t = once^[n] f t := by
  induction n generalizing t with
  | zero => rfl
  | succ n ih =>
    rw [Function.iterate_succ_apply', Function.iterate_succ_apply', hsame t ht]
    exact h t _ _ fun u hu => ih (ht.of_refers hu)

theorem Grows.write_eq (hgrows : s.Grows s') (ht : s.Complete t) (hterm : s.Unfolds t term) (delimiter : Char) :
    s'.write delimiter t = s.write delimiter t := by
  obtain ⟨n, hterm⟩ := hterm
  rw [← iterate_writeOnce hterm delimiter Token.write,
    ← iterate_writeOnce (hgrows.unfoldWithin ht hterm) delimiter Token.write]
  refine (s.descends_writeOnce delimiter).iterate_eq_of_complete (fun u hu f => ?_) ht n _
  rw [writeOnce, writeOnce, hgrows.get? hu.lt_size]

/-- Functions see the arguments of their call, and these are tokens with entries too. -/
theorem Grows.evaluateOnce_eq (hgrows : s.Grows s') (ht : s.Complete t) (env : Environment)
    (nested : Token → Traced EvalEvent EvalError Value) :
    env.evaluateOnce s' nested t = env.evaluateOnce s nested t := by
  rw [Environment.evaluateOnce, Environment.evaluateOnce, hgrows.get? ht.lt_size]
  cases he : s.get? t with
  | none => rfl
  | some e =>
    cases e with
    | literal content => rfl
    | «variable» name => rfl
    | call name arguments =>
      have hinspect : (fun i : Fin arguments.length => (arguments.get i, s'.get? (arguments.get i))) =
          fun i => (arguments.get i, s.get? (arguments.get i)) := by
        funext i
        rw [hgrows.get? (ht.of_refers ⟨_, he, List.get_mem arguments i⟩).lt_size]
      dsimp only
      rw [hinspect]

theorem Grows.evaluateAt_eq (hgrows : s.Grows s') (ht : s.Complete t) (hterm : s.Unfolds t term)
    (env : Environment) : env.evaluateAt s' t = env.evaluateAt s t := by
  obtain ⟨n, hterm⟩ := hterm
  rw [← env.iterate_evaluateOnce hterm fun u => .fail (.tooDeep u),
    ← env.iterate_evaluateOnce (hgrows.unfoldWithin ht hterm) fun u => .fail (.tooDeep u)]
  exact (env.descends_evaluateOnce s).iterate_eq_of_complete (fun u hu => hgrows.evaluateOnce_eq hu env) ht n _

/-- **Adding entries does not disturb the tokens issued before.** A token that reaches nothing but entries, and ends
doing so, keeps its entry, its text and its value, and is evaluated with the same events. The tokens of the new entries
are new and differ from each other, and each stands for its entry. -/
theorem insertAll_frame (s : Store) (entries : List Entry) :
    (∀ t, s.Complete t → (∃ term, s.Unfolds t term) →
      (s.insertAll entries).1.get? t = s.get? t ∧
      (∀ delimiter, (s.insertAll entries).1.write delimiter t = s.write delimiter t) ∧
      ∀ env : Environment, env.evaluateAt (s.insertAll entries).1 t = env.evaluateAt s t) ∧
    (∀ u ∈ (s.insertAll entries).2, s.size ≤ u.index) ∧ (s.insertAll entries).2.Nodup ∧
    (s.insertAll entries).2.map (s.insertAll entries).1.get? = entries.map some := by
  have hgrows := grows_insertAll s entries
  rw [insertAll_snd]
  refine ⟨fun t ht hunfolds => ?_, fun u hu => le_index_of_mem_newTokens hu, nodup_newTokens _ _,
    map_get?_newTokens (toList_insertAll s entries) (.refl _)⟩
  obtain ⟨term, hterm⟩ := hunfolds
  exact ⟨hgrows.get? ht.lt_size, hgrows.write_eq ht hterm, hgrows.evaluateAt_eq ht hterm⟩

/-- Another call of the store refers to a token that is only issued later. -/
theorem insertAll_frame_dangling :
    let s : Store := ⟨#[.call "f" [⟨3⟩], .variable "2", .call "add" [⟨1⟩, ⟨1⟩]]⟩
    let s' : Store := (s.insertAll [.literal "a", .call "mul" [⟨2⟩, ⟨4⟩]]).1
    let env : Environment := ⟨.withBuiltins, ({} : Bindings).resolve⟩
    s'.write ',' ⟨2⟩ = "add(2, 2)" ∧ env.evaluateAt s' ⟨2⟩ = env.evaluateAt s ⟨2⟩ ∧
      s'.write ',' ⟨0⟩ = "f('a')" ∧ s.write ',' ⟨0⟩ = "f(#3)" := by
  intro s s' env
  have hcall : ∀ u, s.Refers ⟨2⟩ u → u = ⟨1⟩ := by
    rintro u ⟨_, ⟨⟩, hu⟩
    have hu : u ∈ [⟨1⟩, ⟨1⟩] := hu
    simpa using hu
  have hvariable : ∀ u, ¬ s.Refers ⟨1⟩ u := by
    rintro u ⟨_, ⟨⟩, hu⟩
    cases hu
  have hcomplete : s.Complete ⟨2⟩ := by
    intro u hu
    rcases hu.cases_head with rfl | ⟨v, hv, hu⟩
    · rfl
    · obtain rfl := hcall v hv
      rcases hu.cases_head with rfl | ⟨w, hw, -⟩
      · rfl
      · exact absurd hw (hvariable w)
  obtain ⟨-, hwrite, hvalue⟩ := (insertAll_frame s [.literal "a", .call "mul" [⟨2⟩, ⟨4⟩]]).1 ⟨2⟩ hcomplete ⟨_, 2, rfl⟩
  exact ⟨hwrite ',', hvalue env, rfl, rfl⟩

end Store

end CallExpr

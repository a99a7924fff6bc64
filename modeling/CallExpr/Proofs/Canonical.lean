import CallExpr.Proofs.OpaqueLiterals
import CallExpr.Proofs.PassCounts
import CallExpr.Proofs.Writable

/-!
# Numbering is canonical

* `Store.Literals`: the first step of the numbering, in which the literals are stored (`Store.literals_placeAll`).
* `Forest.Staged`: a forest that is numbered by literals, then in rounds, at last by words. So is the forest of terms
  (`Forest.staged_ofTerms`).
* `Forest.Staged.numbering_eq`: the tokens of such a forest are those of its numbering, in order.
* `Dialect.read_canonical`: the forest of a source is determined by its terms, and its tokens are in the order of the
  numbering. The passes report how many calls there are of each height.
-/

namespace CallExpr

namespace Store

variable {S s s' s'' : Store} {ts us : List Term}

/-! ## Literals -/

/-- The literals are stored, from left to right. -/
structure Literals (S s : Store) (ts : List Term) (s' : Store) (us : List Term) : Prop where
  fill : Term.fillAll S.termAt us = ts
  tokens : Term.tokensAll us = s.newTokens s'
  entries : ∀ u ∈ s.newTokens s', S.isLiteral u = true
  remains : S.RemainsAll 0 us

theorem Literals.append {t t' : Term} (h : Literals S s [t] s' [t']) (h' : Literals S s' ts s'' us)
    (hgrows : s.Grows s') (hgrows' : s'.Grows s'') : Literals S s (t :: ts) s'' (t' :: us) := by
  have hnew := hgrows.newTokens_append hgrows'
  refine ⟨?_, ?_, ?_, h.remains.1, h'.remains⟩
  · obtain ⟨hfill, -⟩ : Term.fill S.termAt t' = t ∧ _ := List.cons.inj h.fill
    rw [Term.fillAll, hfill, h'.fill]
  · rw [← List.singleton_append, Term.tokensAll_append, h.tokens, h'.tokens, hnew]
  · rw [← hnew]
    exact List.forall_mem_append.mpr ⟨h.entries, h'.entries⟩

mutual

theorem literals_place (hS : S.Ordered) : ∀ {s : Store} {t : Term}, (s.place Term.isLiteral t).1.Grows S →
    Term.tokens t = [] → Literals S s [t] (s.place Term.isLiteral t).1 [(s.place Term.isLiteral t).2]
  | s, .literal content, h, _ => by
    rw [place_of_pos rfl, replace, insertTerm] at h ⊢
    have hget := h.get?_insert
    have hterm := hS.termAt_eq hget
    refine ⟨?_, ?_, ?_, ⟨?_, ?_⟩, trivial⟩
    · rw [Term.fillAll, Term.fill, hterm]
      rfl
    · rw [newTokens_insert]
      rfl
    · rw [newTokens_insert]
      exact List.forall_mem_singleton.mpr (isLiteral_iff.mpr ⟨content, hget⟩)
    · simp [isVariable, hget]
    · rw [height, hterm]
      exact Nat.le_refl 0
  | s, .variable name, _, _ =>
    ⟨rfl, (newTokens_self s).symm, by simp [place, newTokens_self, Term.isLiteral], trivial, trivial⟩
  | s, .call name arguments, h, ht => by
    rw [place_call_of_neg rfl] at h ⊢
    have harguments := literals_placeAll hS h ht
    refine ⟨?_, ?_, harguments.entries, ⟨harguments.remains, ?_⟩, trivial⟩
    · rw [Term.fillAll, Term.fill, harguments.fill]
      rfl
    · rw [← harguments.tokens, Term.tokensAll, Term.tokens, Term.tokensAll, List.append_nil]
    · rw [Term.fill, harguments.fill, Term.height, Term.height, heights_placeAll_isLiteral]

theorem literals_placeAll (hS : S.Ordered) : ∀ {s : Store} {ts : List Term}, (s.placeAll Term.isLiteral ts).1.Grows S →
    Term.tokensAll ts = [] → Literals S s ts (s.placeAll Term.isLiteral ts).1 (s.placeAll Term.isLiteral ts).2
  | s, [], _, _ => ⟨rfl, (newTokens_self s).symm, by simp [placeAll, newTokens_self], trivial⟩
  | s, t :: ts, h, hts => by
    obtain ⟨ht, hts⟩ := List.append_eq_nil_iff.mp hts
    have hrest : ((s.place Term.isLiteral t).1.placeAll Term.isLiteral ts).1.Grows S := h
    have hfirst : (s.place Term.isLiteral t).1.Grows S := (grows_placeAll _ _ ts).trans hrest
    exact (literals_place hS hfirst ht).append (literals_placeAll hS hrest hts) (grows_place _ s t)
      (grows_placeAll _ _ ts)

end

/-- A call is listed with its variables, and these are no calls. -/
theorem countP_flatMap_numbered {calls : List Token} (h : ∀ u ∈ calls, S.isCall u = true) :
    (calls.flatMap S.numbered).countP S.isCall = calls.length := by
  induction calls with
  | nil => rfl
  | cons c calls ih =>
    obtain ⟨hc, hcalls⟩ := List.forall_mem_cons.mp h
    have hvariables : ((S.argumentsOf c).filter S.isVariable).countP S.isCall = 0 := by
      rw [List.countP_eq_zero]
      intro u hu
      rw [(not_call_of_isVariable (List.mem_filter.mp hu).2).1]
      exact Bool.false_ne_true
    rw [List.flatMap_cons, List.countP_append, ih hcalls, numbered, List.countP_append, hvariables, List.length_cons,
      List.countP_singleton, if_pos hc]
    omega

end Store

/-! ## The whole numbering -/

namespace Forest

open Store

variable {f : Forest} {terms ts us : List Term} {s s' : Store}

theorem isCall_of_mem_callsOfHeight {h : Nat} {u : Token} (hu : u ∈ f.callsOfHeight h) : f.store.isCall u = true :=
  isCall_of_mem_calls (List.mem_filter.mp hu).1

/-- A forest that is numbered in this way: first the literals, then round after round, at last the words. -/
structure Staged (f : Forest) (terms : List Term) (s : Store) (ts : List Term) : Prop where
  ordered : f.store.Ordered
  height : f.height = Term.heights terms
  grows : s.Grows (settle (Term.heights terms) s ts).1
  grows_settle : (settle (Term.heights terms) s ts).1.Grows f.store
  literals : Literals f.store .empty terms s ts
  layered : Layered f.store 0 (Term.heights terms) s ts (settle (Term.heights terms) s ts).1
    (settle (Term.heights terms) s ts).2
  words : Words f.store (settle (Term.heights terms) s ts).1 (settle (Term.heights terms) s ts).2 f.store f.roots

theorem staged_ofTerms (h : Term.tokensAll terms = []) : (ofTerms terms).Staged terms
    (Store.empty.placeAll Term.isLiteral terms).1 (Store.empty.placeAll Term.isLiteral terms).2 := by
  have hordered := (keeps_ofTerms h).ordered
  have hheights := heights_placeAll_isLiteral .empty terms
  have hrounds := Store.grows_settle (Term.heights terms) (Store.empty.placeAll Term.isLiteral terms).1
    (Store.empty.placeAll Term.isLiteral terms).2
  have hwords : (settle (Term.heights terms) (Store.empty.placeAll Term.isLiteral terms).1
      (Store.empty.placeAll Term.isLiteral terms).2).1.Grows (ofTerms terms).store := grows_insertTerms _ _
  have hliterals := literals_placeAll hordered (hrounds.trans hwords) h
  have hlayered := layered_settle hordered _ hwords hliterals.remains
  refine ⟨hordered, ?_, hrounds, hwords, hliterals, hlayered, ?_⟩
  · rw [Forest.height, map_termAt_roots h]
  · refine words_insertTerms hordered (.refl _) hlayered.remains ?_
    rw [heights_settle, hheights, Nat.sub_self]

namespace Staged

variable (h : f.Staged terms s ts)

include h

theorem postorder_eq {q : Token → Bool} (hq : ∀ u, f.store.isVariable u = true → q u = false) :
    f.postorder.filter q = (f.store.postorderOf (settle (Term.heights terms) s ts).2).filter q :=
  h.words.old q fun u hu => hq u (h.words.entries u hu)

/-- Before the first round there are tokens of literals only. -/
theorem postorderOf_literals : f.store.postorderOf ts = Store.empty.newTokens s := by
  rw [postorderOf, h.literals.tokens]
  refine (List.flatMap_congr fun u hu => h.ordered.postorder_of_nil ?_).trans (List.flatMap_singleton' _)
  obtain ⟨content, hget⟩ := isLiteral_iff.mp (h.literals.entries u hu)
  rw [argumentsOf_of_get? hget]
  rfl

/-- The literals are first. -/
theorem literals_eq : f.postorder.filter f.store.isLiteral = Store.empty.newTokens s := by
  rw [h.postorder_eq fun u hu => (not_call_of_isVariable hu).2, h.layered.old _ fun u hu => (h.layered.entries u hu).1,
    h.postorderOf_literals]
  exact List.filter_eq_self.mpr h.literals.entries

/-- Each round issues the calls of one height. -/
theorem layers_eq : (List.range f.height).map (fun i => (f.callsOfHeight (i + 1)).flatMap f.store.numbered) =
    batches (Term.heights terms) s ts := by
  have hlayer : ∀ i, f.callsOfHeight (i + 1) =
      (f.store.postorderOf (settle (Term.heights terms) s ts).2).filter (f.store.isCallOfHeight (0 + i + 1)) := by
    intro i
    rw [callsOfHeight, ← filter_postorder, List.filter_filter, ← h.postorder_eq fun u hu => ?_]
    · refine List.filter_congr fun u _ => ?_
      rw [isCallOfHeight, Bool.and_comm, Nat.zero_add]
    · rw [isCallOfHeight, (not_call_of_isVariable hu).1, Bool.false_and]
  rw [h.height, ← h.layered.layers fun k hk => ?_]
  · simp only [hlayer]
  · rw [h.postorderOf_literals, List.filter_eq_nil_iff]
    intro u hu
    obtain ⟨content, hget⟩ := isLiteral_iff.mp (h.literals.entries u hu)
    simp [isCallOfHeight, isCall, hget]

/-- **The tokens of a forest are numbered in order.** -/
theorem numbering_eq : f.numbering = f.store.tokens := by
  have hlayers : (List.range f.height).flatMap (fun i => (f.callsOfHeight (i + 1)).flatMap f.store.numbered) =
      s.newTokens (settle (Term.heights terms) s ts).1 := by
    rw [← flatten_batches, ← h.layers_eq, List.flatMap_def]
  have hempty : Store.empty.Grows s := ⟨s.toList, rfl⟩
  rw [numbering, h.literals_eq, hlayers, h.words.words, hempty.newTokens_append h.grows,
    (hempty.trans h.grows).newTokens_append h.grows_settle, newTokens_empty]

/-- Each round issues as many calls as there are of its height. -/
theorem mapIdx_batches :
    (batches (Term.heights terms) s ts).mapIdx (fun i batch => (i + 1, batch.countP f.store.isCall)) =
      (List.range f.height).map fun h => (h + 1, (f.callsOfHeight (h + 1)).length) := by
  rw [← h.layers_eq]
  refine List.ext_getElem (by simp) fun i _ _ => ?_
  have hcalls := countP_flatMap_numbered fun u => isCall_of_mem_callsOfHeight (f := f) (u := u) (h := i + 1)
  simp only [List.getElem_mapIdx, List.getElem_map, List.getElem_range, hcalls]

end Staged

end Forest

/-! ## Sources -/

namespace Dialect

variable {d : Dialect} {source : String} {forest : Forest} {lexemes : List Lexeme} {terms : List Term}

/-- The forest of a source is the numbering of its terms. -/
theorem eq_ofTerms_of_read (h : (d.read source).result = .ok forest) (hterms : forest.Unfolds terms) :
    forest = Forest.ofTerms terms := by
  obtain ⟨-, lexemes, read, hscan, hread, -, rfl⟩ := read_eq_ok_iff.mp h
  rw [hterms.unique (Forest.unfolds_ofTerms (tokensAll_of_readTerms hscan hread))]

/-- All reports of passes come from the passes. -/
theorem filterMap_trace_read (h : (d.read source).result = .ok forest) (hscan : Lexeme.scan source = .ok lexemes) :
    (d.read source).trace.filterMap Stage.pass? =
      (d.passes d.maxDepth 0 (Store.empty.insertLiterals (Item.ofLexemes lexemes)).1
        (Store.empty.insertLiterals (Item.ofLexemes lexemes)).2).trace.filterMap Stage.pass? := by
  obtain ⟨husable, lexemes', s, items, arguments, hscan', hpasses, harguments, -⟩ := read_eq_ok_iff_passes.mp h
  obtain rfl := Except.ok.inj (hscan.symm.trans hscan')
  rw [read, if_pos husable, Traced.bind_of_ok (ofExcept_mapError_eq_ok_iff.mpr hscan)]
  dsimp only
  rw [Traced.bind_of_ok hpasses, Traced.bind_of_ok (ofExcept_mapError_eq_ok_iff.mpr harguments)]
  simp only [List.filterMap_append]
  exact List.append_nil _

/-- **The numbering is canonical.** Two sources that are read to the same terms, in whatever dialects, are read to the
same forest. Its store has first the literals in the order of the source, then the calls of height one, two and so on,
from left to right and each right after its own variables, at last the variables at the top level. Each pass reports
the calls of its height. -/
theorem read_canonical :
    (∀ (d d' : Dialect) (source source' : String) (forest forest' : Forest) (terms : List Term),
      (d.read source).result = .ok forest → (d'.read source').result = .ok forest' → forest.Unfolds terms →
      forest'.Unfolds terms → forest = forest') ∧
    ∀ (d : Dialect) (source : String) (forest : Forest), (d.read source).result = .ok forest →
      forest.Unfolds (forest.roots.map forest.store.termAt) ∧
      (∀ t, t.index < forest.store.size → forest.store.Unfolds t (forest.store.termAt t)) ∧
      forest.numbering = forest.store.tokens ∧
      (∃ lexemes, Lexeme.scan source = .ok lexemes ∧
        (forest.postorder.filter forest.store.isLiteral).map forest.store.get? =
          (lexemes.filterMap Lexeme.content?).map fun content => some (.literal content)) ∧
      (d.read source).trace.filterMap Stage.pass? =
        (List.range forest.height).map fun h => (h + 1, (forest.callsOfHeight (h + 1)).length) := by
  refine ⟨fun d d' source source' forest forest' terms h h' hterms hterms' => ?_, fun d source forest h => ?_⟩
  · rw [eq_ofTerms_of_read h hterms, eq_ofTerms_of_read h' hterms']
  · obtain ⟨-, lexemes, terms, hscan, hterms, hlt, rfl⟩ := read_eq_ok_iff.mp h
    have htokens := tokensAll_of_readTerms hscan hterms
    have hstaged := Forest.staged_ofTerms htokens
    have hunfolds := Forest.unfolds_ofTerms htokens
    have hheights := Store.heights_placeAll_isLiteral .empty terms
    have hliterals := readTerms_insertLiterals d.delimiter .empty (Item.ofLexemes lexemes)
    rw [hterms] at hliterals
    generalize hafter : readTerms d.delimiter (openItems (Store.empty.insertLiterals (Item.ofLexemes lexemes)).2) =
      after at hliterals
    cases hliterals with
    | @some _ ts hplace =>
      rw [hplace] at hstaged hheights
      refine ⟨?_, fun t => hstaged.ordered.unfolds, hstaged.numbering_eq, ⟨lexemes, hscan, ?_⟩, ?_⟩
      · rwa [Forest.map_termAt_roots htokens]
      · have hstore := Store.toList_insertLiterals .empty (Item.ofLexemes lexemes)
        rw [Item.tokens_ofLexemes] at hstore
        rw [hstaged.literals_eq, Store.map_get?_newTokens hstore (hstaged.grows.trans hstaged.grows_settle),
          List.map_map]
        rfl
      · have hgrows := hstaged.grows_settle
        rw [← hheights] at hgrows
        rw [filterMap_trace_read h hscan, filterMap_trace_passes hafter (hheights ▸ hlt) hgrows, hheights,
          ← hstaged.mapIdx_batches]
        simp only [Nat.zero_add]

/-- The variables `x` and `y` are stored right before their calls, and `z` is the last. -/
theorem read_canonical_delimiters :
    let forest : Forest := ⟨⟨#[.literal "a", .variable "x", .call "g" [⟨1⟩, ⟨0⟩], .call "h" [], .variable "y",
      .call "f" [⟨2⟩, ⟨4⟩, ⟨3⟩], .variable "z"]⟩, [⟨5⟩, ⟨6⟩]⟩
    (Dialect.read {} "f(g(x, 'a'), y, h()) z").result = .ok forest ∧
      (∃ forest', (Dialect.read ⟨3, ';'⟩ "f( g(x;'a');y ;\th( ) )  z").result = .ok forest' ∧ forest = forest') ∧
      forest.numbering = forest.store.tokens ∧
      (Dialect.read {} "f(g(x, 'a'), y, h()) z").trace.filterMap Stage.pass? = [(1, 2), (2, 1)] := by
  intro forest
  have hread : (Dialect.read {} "f(g(x, 'a'), y, h()) z").result = .ok forest := by decide
  have hread' : (Dialect.read ⟨3, ';'⟩ "f( g(x;'a');y ;\th( ) )  z").result = .ok forest := by decide
  obtain ⟨hsame, hforest⟩ := read_canonical
  obtain ⟨hterms, -, hnumbering, -, hpasses⟩ := hforest _ _ _ hread
  exact ⟨hread, ⟨forest, hread', hsame _ _ _ _ _ _ _ hread hread' hterms hterms⟩, hnumbering, hpasses⟩

end Dialect

end CallExpr

import CallExpr.Proofs.Passes

/-!
# The forest of a source

* `literalItems`: the items of a source with its literals as terms.
* `readTerms_insertLiterals`: storing the literals places the literals of the terms.
* `Dialect.read_eq_ok_iff`: the forest of a source is the numbering of the terms that its items are read to in one go,
  if these are not nested too deeply.
-/

namespace CallExpr

/-- The items with each literal as a term. -/
def literalItems (items : List (Item String)) : List (Item Term) :=
  items.map (Item.map .literal)

/-! ## Literals -/

section Literals

variable {d : Char} {s s₀ : Store} {g g' : Groups}

theorem run_insertLiterals (items : List (Item String)) (hplaced : Groups.Placed Term.isLiteral s₀ g s g') :
    Option.Rel (fun h h' => Groups.Placed Term.isLiteral s₀ h (s.insertLiterals items).1 h')
      (g.run d (literalItems items)) (g'.run d (openItems (s.insertLiterals items).2)) := by
  induction items generalizing s g g' with
  | nil => exact .some hplaced
  | cons x items ih =>
    cases x with
    | char c =>
      have hstep := hplaced.step_char (d := d) (c := c) (fun _ => rfl) fun _ _ _ _ _ _ _ => rfl
      rw [Store.insertLiterals, literalItems, List.map_cons, Item.map, Groups.run_cons]
      dsimp only
      rw [openItems, List.map_cons, Item.map, Groups.run_cons]
      generalize g.step d (.char c) = next at hstep ⊢
      generalize g'.step d (.char c) = next' at hstep ⊢
      cases hstep with
      | none => exact .none
      | some hplaced' => exact ih hplaced'
    | token content =>
      have hplace : s.place Term.isLiteral (.literal content) = s.replace (.literal content) := Store.place_of_pos rfl
      exact ih (hplaced.push_token hplace)

/-- Storing the literals places the literals of the terms. -/
theorem readTerms_insertLiterals (d : Char) (s : Store) (items : List (Item String)) :
    Option.Rel (fun ts ts' => s.placeAll Term.isLiteral ts = ((s.insertLiterals items).1, ts'))
      (readTerms d (literalItems items)) (readTerms d (openItems (s.insertLiterals items).2)) := by
  have hrun := run_insertLiterals (d := d) items (Groups.placed_start Term.isLiteral s)
  rw [readTerms, readTerms]
  generalize Groups.run d {} (literalItems items) = first at hrun ⊢
  generalize Groups.run d {} (openItems (s.insertLiterals items).2) = second at hrun ⊢
  cases hrun with
  | none => exact .none
  | some hplaced => exact hplaced.finish fun _ => rfl

end Literals

/-! ## Sources -/

namespace Dialect

variable {d : Dialect} {source : String} {forest : Forest}

theorem ofExcept_mapError_eq_ok_iff {α ε : Type} {f : ε → ReadError} {r : Except ε α} {a : α} :
    (Traced.ofExcept (r.mapError f) : Traced Stage ReadError α).result = .ok a ↔ r = .ok a := by
  cases r with
  | error e =>
    constructor <;>
    · intro h
      cases h
  | ok b =>
    constructor <;>
    · intro h
      cases h
      rfl

/-- The stages of reading. -/
theorem read_eq_ok_iff_passes : (d.read source).result = .ok forest ↔ isUsable d.delimiter = true ∧
    ∃ lexemes s items arguments, Lexeme.scan source = .ok lexemes ∧
      (d.passes d.maxDepth 0 (Store.empty.insertLiterals (Item.ofLexemes lexemes)).1
        (Store.empty.insertLiterals (Item.ofLexemes lexemes)).2).result = .ok (s, items) ∧
      Argument.ofTopLevel d.delimiter items = .ok arguments ∧
      (⟨(s.insertWords arguments).1, (s.insertWords arguments).2⟩ : Forest) = forest := by
  unfold read
  split
  · next husable =>
    simp only [Traced.bind_eq_ok_iff, ofExcept_mapError_eq_ok_iff, husable, true_and]
    constructor
    · rintro ⟨lexemes, hscan, ⟨s, items⟩, hpasses, arguments, hargs, _, -, hforest⟩
      exact ⟨lexemes, s, items, arguments, hscan, hpasses, hargs, Except.ok.inj hforest⟩
    · rintro ⟨lexemes, s, items, arguments, hscan, hpasses, hargs, rfl⟩
      exact ⟨lexemes, hscan, ⟨s, items⟩, hpasses, arguments, hargs, (), rfl, rfl⟩
  · next husable =>
    constructor
    · intro h
      cases h
    · rintro ⟨h, -⟩
      exact absurd h husable

/-- **The forest of a source** numbers the terms that the items of the source are read to. -/
theorem read_eq_ok_iff : (d.read source).result = .ok forest ↔ isUsable d.delimiter = true ∧
    ∃ lexemes terms, Lexeme.scan source = .ok lexemes ∧
      readTerms d.delimiter (literalItems (Item.ofLexemes lexemes)) = some terms ∧
      Term.heights terms < d.maxDepth ∧ Forest.ofTerms terms = forest := by
  rw [read_eq_ok_iff_passes]
  refine and_congr_right fun _ => exists_congr fun lexemes => ?_
  have hliterals := readTerms_insertLiterals d.delimiter .empty (Item.ofLexemes lexemes)
  generalize hafter : readTerms d.delimiter (openItems (Store.empty.insertLiterals (Item.ofLexemes lexemes)).2) = after
    at hliterals
  generalize readTerms d.delimiter (literalItems (Item.ofLexemes lexemes)) = before at hliterals
  cases hliterals with
  | none =>
    constructor
    · rintro ⟨s, items, arguments, -, hpasses, hargs, -⟩
      exact absurd hargs (passes_of_none hafter hpasses arguments)
    · rintro ⟨terms, -, hterms, -⟩
      cases hterms
  | @some terms ts hplace =>
    generalize hstore : (Store.empty.insertLiterals (Item.ofLexemes lexemes)).1 = stored at hplace ⊢
    have hheights : Term.heights ts = Term.heights terms := by
      rw [← Store.heights_placeAll_isLiteral .empty terms, hplace]
    have hforest : ∀ arguments, openTerms arguments = (stored.settle (Term.heights ts) ts).2 →
        (⟨((stored.settle (Term.heights ts) ts).1.insertWords arguments).1,
          ((stored.settle (Term.heights ts) ts).1.insertWords arguments).2⟩ : Forest) = Forest.ofTerms terms := by
      intro arguments hopen
      rw [Store.insertWords_eq, hopen, Forest.ofTerms, hplace, hheights]
    constructor
    · rintro ⟨s, items, arguments, hscan, hpasses, hargs, rfl⟩
      rcases Nat.lt_or_ge (Term.heights terms) d.maxDepth with hlt | hge
      · obtain ⟨items', arguments', hpasses', hargs', hopen⟩ := passes_of_lt hafter (hheights ▸ hlt)
        obtain ⟨rfl, rfl⟩ := Prod.mk.inj (Except.ok.inj (hpasses.symm.trans hpasses'))
        obtain rfl := Except.ok.inj (hargs.symm.trans hargs')
        exact ⟨terms, hscan, rfl, hlt, (hforest arguments hopen).symm⟩
      · rw [passes_of_le hafter (hheights ▸ hge)] at hpasses
        cases hpasses
    · rintro ⟨_, hscan, ⟨⟩, hlt, rfl⟩
      obtain ⟨items', arguments, hpasses, hargs, hopen⟩ := passes_of_lt hafter (hheights ▸ hlt)
      exact ⟨_, items', arguments, hscan, hpasses, hargs, hforest arguments hopen⟩

end Dialect

end CallExpr

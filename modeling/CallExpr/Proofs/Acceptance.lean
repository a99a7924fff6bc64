import CallExpr.Proofs.Recognition
import CallExpr.Proofs.Writable

/-!
# The sources that are read

With a delimiter that stands in no name, a source is read just if its items derive from the grammar without too much
nesting, and its forest unfolds to the terms of the derivation (`Dialect.read_iff_derives`).
-/

namespace CallExpr

namespace Dialect

/-- **A source is read just if it derives from the grammar**, and its forest is the derivation. -/
theorem read_iff_derives (d : Dialect) (source : String) (hd : isUsable d.delimiter = true)
    (hname : isNameChar d.delimiter = false) (hquotes : Even (source.toList.count quoteMark)) :
    ∃ lexemes, Lexeme.scan source = .ok lexemes ∧
      ((∃ forest, (d.read source).result = .ok forest) ↔
        ∃ terms, Grammar.IsForest d.delimiter (literalItems (Item.ofLexemes lexemes)) terms ∧
          Term.heights terms < d.maxDepth) ∧
      ∀ forest, (d.read source).result = .ok forest → ∀ terms,
        forest.Unfolds terms ↔ Grammar.IsForest d.delimiter (literalItems (Item.ofLexemes lexemes)) terms := by
  obtain ⟨lexemes, hscan⟩ := Lexeme.exists_scan_of_even hquotes
  have hread : ∀ forest, (d.read source).result = .ok forest ↔
      ∃ terms, Grammar.IsForest d.delimiter (literalItems (Item.ofLexemes lexemes)) terms ∧
        Term.heights terms < d.maxDepth ∧ Forest.ofTerms terms = forest := by
    intro forest
    rw [read_eq_ok_iff]
    constructor
    · rintro ⟨-, lexemes', terms, hscan', hterms, hheights⟩
      obtain rfl := Except.ok.inj (hscan.symm.trans hscan')
      exact ⟨terms, isForest_of_readTerms hterms, hheights⟩
    · rintro ⟨terms, hforest, hheights⟩
      exact ⟨hd, lexemes, terms, hscan, (readTerms_eq_some_iff_isForest hd hname).mpr hforest, hheights⟩
  refine ⟨lexemes, hscan, ⟨?_, ?_⟩, fun forest hforest terms => ?_⟩
  · rintro ⟨forest, hforest⟩
    obtain ⟨terms, hderives, hheights, -⟩ := (hread forest).mp hforest
    exact ⟨terms, hderives, hheights⟩
  · rintro ⟨terms, hderives, hheights⟩
    exact ⟨_, (hread _).mpr ⟨terms, hderives, hheights, rfl⟩⟩
  · obtain ⟨terms', hderives, -, rfl⟩ := (hread forest).mp hforest
    have hterms := (readTerms_eq_some_iff_isForest hd hname).mpr hderives
    have hunfolds := Forest.unfolds_ofTerms (tokensAll_of_readTerms hscan hterms)
    constructor
    · intro h
      rwa [h.unique hunfolds]
    · intro h
      have hsame := (readTerms_eq_some_iff_isForest hd hname).mpr h
      rw [hterms] at hsame
      rwa [← Option.some.inj hsame]

theorem read_iff_derives_nested : Even ("f( x y ,, g('(') ) b".toList.count quoteMark) ∧
    ∃ lexemes terms, Lexeme.scan "f( x y ,, g('(') ) b" = .ok lexemes ∧
      Grammar.IsForest ',' (literalItems (Item.ofLexemes lexemes)) terms ∧ Term.heights terms < 20 := by
  have hread : (Dialect.read {} "f( x y ,, g('(') ) b").result =
      .ok ⟨⟨#[.literal "(", .call "g" [⟨0⟩], .variable "x y", .variable "", .call "f" [⟨2⟩, ⟨3⟩, ⟨1⟩],
        .variable "b"]⟩, [⟨4⟩, ⟨5⟩]⟩ := rfl
  obtain ⟨lexemes, hscan, haccepted, -⟩ :=
    read_iff_derives {} "f( x y ,, g('(') ) b" (by decide) (by decide) (by decide)
  obtain ⟨terms, hderives, hheights⟩ := haccepted.mp ⟨_, hread⟩
  exact ⟨by decide, lexemes, terms, hscan, hderives, hheights⟩

end Dialect

end CallExpr

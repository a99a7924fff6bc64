import CallExpr.Proofs.Writable

/-!
# The limit of nesting

* `Traced.CutShort e x y`: `x` is `y`, or it ends with the error `e` where `y` may go on. Computations that go on with
  the value keep this (`Traced.CutShort.bind`).
* `Dialect.cutShort_passes`: a smaller limit cuts the passes short, and changes nothing else. So it is with the whole
  source (`Dialect.cutShort_read`).
* `Dialect.read_limit`: the limits under which a source is read are those above the height of its terms.
-/

namespace CallExpr

namespace Traced

variable {ω ε α β : Type} {e : ε} {x y : Traced ω ε α} {f g : α → Traced ω ε β}

/-- The same computation, unless `x` ends with the error `e`. -/
def CutShort (e : ε) (x y : Traced ω ε α) : Prop :=
  x = y ∨ x.result = .error e

theorem CutShort.refl (e : ε) (x : Traced ω ε α) : CutShort e x x :=
  Or.inl rfl

/-- What goes on with the value is cut short, if that is. -/
theorem CutShort.bind (h : CutShort e x y) (hfg : ∀ a, CutShort e (f a) (g a)) : CutShort e (x >>= f) (y >>= g) := by
  rcases h with rfl | h
  · cases hx : x.result with
    | error e' => exact Or.inl (by rw [bind_of_error hx, bind_of_error hx])
    | ok a =>
      rw [bind_of_ok hx, bind_of_ok hx]
      rcases hfg a with hsame | hcut
      · exact Or.inl (by rw [hsame])
      · exact Or.inr hcut
  · exact Or.inr (by rw [bind_of_error h])

end Traced

namespace Dialect

variable {c : Char} {m n : Nat} {source : String} {forest : Forest}

/-- The limit does not matter for one pass. -/
theorem resolve_limit (m n : Nat) (s : Store) (chunks : List (Chunk Token)) :
    (Dialect.mk m c).resolve s chunks = (Dialect.mk n c).resolve s chunks := by
  induction chunks generalizing s with
  | nil => rfl
  | cons chunk chunks ih =>
    cases chunk with
    | item x => simp only [resolve, ih]
    | call name body => simp only [resolve, ih]

/-- Fewer passes are the same passes, or they are too few. -/
theorem cutShort_passes {left left' : Nat} (hle : left ≤ left') (done : Nat) (s : Store) (items : List (Item Token)) :
    Traced.CutShort (.tooDeep m) ((Dialect.mk m c).passes left done s items)
      ((Dialect.mk n c).passes left' done s items) := by
  -- Both sides do the same in each pass, until the left one has none left.
  induction left generalizing left' done s items with
  | zero => exact Or.inr rfl
  | succ left ih =>
    obtain ⟨left', rfl⟩ : ∃ k, left' = k + 1 := ⟨left' - 1, by omega⟩
    rw [passes, passes]
    dsimp only
    split
    · exact .refl _ _
    · refine Traced.CutShort.bind (.refl _ _) fun _ => ?_
      rw [resolve_limit m n]
      exact Traced.CutShort.bind (.refl _ _) fun r => ih (Nat.le_of_succ_le_succ hle) _ _ _

/-- **A smaller limit cuts the reading of a source short**, and changes nothing else. -/
theorem cutShort_read (hle : m ≤ n) (c : Char) (source : String) :
    Traced.CutShort (.tooDeep m) ((Dialect.mk m c).read source) ((Dialect.mk n c).read source) := by
  unfold read
  split
  · refine Traced.CutShort.bind (.refl _ _) fun lexemes => ?_
    exact Traced.CutShort.bind (cutShort_passes hle _ _ _) fun r => .refl _ _
  · exact .refl _ _

/-- The forest of a source has terms. -/
theorem exists_unfolds_of_read {d : Dialect} (h : (d.read source).result = .ok forest) :
    ∃ terms, forest.Unfolds terms := by
  obtain ⟨-, lexemes, terms, hscan, hterms, -, rfl⟩ := read_eq_ok_iff.mp h
  exact ⟨terms, Forest.unfolds_ofTerms (tokensAll_of_readTerms hscan hterms)⟩

/-- Every limit above the height of the terms gives the same forest. -/
theorem read_of_heights_lt {terms : List Term} (h : ((Dialect.mk m c).read source).result = .ok forest)
    (hterms : forest.Unfolds terms) (hlt : Term.heights terms < n) :
    ((Dialect.mk n c).read source).result = .ok forest := by
  obtain ⟨hd, lexemes, read, hscan, hread, -, rfl⟩ := read_eq_ok_iff.mp h
  obtain rfl := hterms.unique (Forest.unfolds_ofTerms (tokensAll_of_readTerms hscan hread))
  exact read_eq_ok_iff.mpr ⟨hd, lexemes, _, hscan, hread, hlt, rfl⟩

/-- A source is read under limits above the height of its terms only. -/
theorem heights_lt_of_read {terms : List Term} (h : ((Dialect.mk m c).read source).result = .ok forest)
    (hterms : forest.Unfolds terms) : Term.heights terms < m := by
  obtain ⟨-, lexemes, read, hscan, hread, hlt, rfl⟩ := read_eq_ok_iff.mp h
  rwa [hterms.unique (Forest.unfolds_ofTerms (tokensAll_of_readTerms hscan hread))]

/-- **The limit is exact and cuts nothing else.** A source that is read is read to the same forest under each limit
above the height of its terms, and under no other; and a smaller limit gives the same result or is exceeded. -/
theorem read_limit (c : Char) (source : String) :
    (∀ m forest, ((Dialect.mk m c).read source).result = .ok forest →
      ∃ terms, forest.Unfolds terms ∧ ∀ n,
        (Term.heights terms < n → ((Dialect.mk n c).read source).result = .ok forest) ∧
        (n ≤ Term.heights terms → ((Dialect.mk n c).read source).result = .error (.tooDeep n))) ∧
    ∀ n n', n ≤ n' → ((Dialect.mk n c).read source).result = ((Dialect.mk n' c).read source).result ∨
      ((Dialect.mk n c).read source).result = .error (.tooDeep n) := by
  refine ⟨fun m forest h => ?_, fun n n' hle => ?_⟩
  · obtain ⟨-, lexemes, terms, hscan, hterms, -, hforest⟩ := read_eq_ok_iff.mp h
    have hunfolds : forest.Unfolds terms :=
      hforest ▸ Forest.unfolds_ofTerms (tokensAll_of_readTerms hscan hterms)
    have hlt := heights_lt_of_read h hunfolds
    refine ⟨terms, hunfolds, fun n => ⟨read_of_heights_lt h hunfolds, fun hle => ?_⟩⟩
    rcases cutShort_read (m := n) (Nat.le_of_lt (Nat.lt_of_le_of_lt hle hlt)) c source with hsame | hcut
    · rw [← hsame] at h
      exact absurd (heights_lt_of_read h hunfolds) (Nat.not_lt.mpr hle)
    · exact hcut
  · exact (cutShort_read hle c source).imp_left (congrArg Traced.result)

/-- Two calls are nested, and the parentheses of the literal do not count. The second source is malformed inside of a
call. -/
theorem read_limit_nested : (∃ forest, (Dialect.read ⟨20, ','⟩ "g(x, f('(((')) y").result = .ok forest ∧
      ∀ n, (2 < n → (Dialect.read ⟨n, ','⟩ "g(x, f('(((')) y").result = .ok forest) ∧
        (n ≤ 2 → (Dialect.read ⟨n, ','⟩ "g(x, f('(((')) y").result = .error (.tooDeep n))) ∧
    (Dialect.read ⟨2, ','⟩ "g((f(x)))").result = .error (.malformed "g((#1))") ∧
    ∀ n ≤ 2, (Dialect.read ⟨n, ','⟩ "g((f(x)))").result = .error (.malformed "g((#1))") ∨
      (Dialect.read ⟨n, ','⟩ "g((f(x)))").result = .error (.tooDeep n) := by
  have hread : (Dialect.read ⟨20, ','⟩ "g(x, f('(((')) y").result =
      .ok ⟨⟨#[.literal "(((", .call "f" [⟨0⟩], .variable "x", .call "g" [⟨2⟩, ⟨1⟩], .variable "y"]⟩,
        [⟨3⟩, ⟨4⟩]⟩ := rfl
  obtain ⟨terms, hterms, hlimits⟩ := (read_limit ',' "g(x, f('(((')) y").1 20 _ hread
  obtain rfl := hterms.unique ⟨3, rfl⟩
  have hmalformed : (Dialect.read ⟨2, ','⟩ "g((f(x)))").result = .error (.malformed "g((#1))") := rfl
  refine ⟨⟨_, hread, hlimits⟩, hmalformed, fun n hn => ?_⟩
  rw [← hmalformed]
  exact (read_limit ',' "g((f(x)))").2 n 2 hn

end Dialect

end CallExpr

import CallExpr.Proofs.Joining
import CallExpr.Proofs.Lossless
import CallExpr.Proofs.Padding
import Mathlib.Logic.Relation

/-!
# Layout

* `Text.Relaid`: one change of the blanks in a source, at its ends or outside of the literals.
* `Item.terms`: what items are read to, with one lemma for each place in which blanks do not matter.
* `Text.Relaid.exists_items`: a change of the layout, item by item.
* `Dialect.read_relaid`: sources that differ in their layout are read alike.
-/

namespace CallExpr

open Grammar

namespace Text

/-- A change of the blanks beside a parenthesis or a delimiter, or of a run of blanks. -/
inductive Reflow (d : Char) : List Char → List Char → Prop
  | after {c : Char} {blanks : List Char} : c = '(' ∨ c = d → (∀ b ∈ blanks, isBlank b = true) →
    Reflow d [c] (c :: blanks)
  | before {c : Char} {blanks : List Char} : c = ')' ∨ c = d → (∀ b ∈ blanks, isBlank b = true) →
    Reflow d [c] (blanks ++ [c])
  | run {blanks blanks' : List Char} : blanks ≠ [] → (∀ b ∈ blanks, isBlank b = true) →
    blanks' ≠ [] → (∀ b ∈ blanks', isBlank b = true) → Reflow d blanks blanks'

/-- One change of the layout of a source. Behind an even number of quotes no literal is open. -/
inductive Relaid (d : Char) : List Char → List Char → Prop
  | ends {left right : List Char} (source : List Char) : (∀ b ∈ left, isBlank b = true) →
    (∀ b ∈ right, isBlank b = true) → Relaid d source (left ++ source ++ right)
  | inside {old new : List Char} (before after : List Char) : Even (before.count quoteMark) → Reflow d old new →
    Relaid d (before ++ old ++ after) (before ++ new ++ after)

end Text

variable {cs blanks old new source other : List Char}

/-! ## What items are read to -/

/-- A parenthesis or a delimiter is no blank and no quote. -/
theorem Dialect.not_blank_of_mark {c d : Char} (hd : isUsable d = true) (hc : c = '(' ∨ c = ')' ∨ c = d) :
    Text.isBlank c = false ∧ quoteMark ≠ c := by
  obtain ⟨hblank, -, hquote⟩ := isUsable_iff.mp hd
  rcases hc with rfl | rfl | rfl
  · decide
  · decide
  · exact ⟨hblank, Ne.symm hquote⟩

namespace Item

variable {c d : Char}

/-- Characters in which every literal is closed spell out items. -/
theorem exists_unquoted_of_even (h : Even (cs.count quoteMark)) :
    ∃ items : List (Item String), Unquoted items ∧ items.flatMap spell = cs := by
  rw [← String.toList_ofList (l := cs)] at h
  obtain ⟨lexemes, hscan⟩ := Lexeme.exists_scan_of_even h
  obtain ⟨items, hitems, hsource, -⟩ := Lexeme.exists_unquoted_of_scan hscan
  exact ⟨items, hitems, (String.ofList_injective hsource).symm⟩

/-- The terms of items whose blanks are not collapsed yet. -/
def terms (d : Char) (items : List (Item String)) : Option (List Term) :=
  readTerms d (literalItems (collapseFrom false items))

theorem terms_after (hd : Dialect.isUsable d = true) (hname : isNameChar d = false) (hc : c = '(' ∨ c = d)
    (hblanks : ∀ b ∈ blanks, Text.isBlank b = true) (xs ys : List (Item String)) :
    terms d (xs ++ (c :: blanks).map char ++ ys) = terms d (xs ++ [c].map char ++ ys) := by
  have hblank : (char c : Item String).isBlank = false := (Dialect.not_blank_of_mark hd (hc.imp_right .inr)).1
  rw [List.append_assoc, List.append_assoc, List.map_cons, List.cons_append, List.map_singleton, List.singleton_append,
    terms, terms, collapseFrom_append_cons hblank, collapseFrom_append_cons hblank]
  rcases collapseFrom_blanks_append (isBlank_of_mem_map_char hblanks) ys with hsame | hspace
  · rw [hsame]
  · rw [hspace]
    simp only [literalItems_append, literalItems_cons_char]
    exact readTerms_insert_after hd hname hc _ _

theorem terms_before (hd : Dialect.isUsable d = true) (hname : isNameChar d = false) (hc : c = ')' ∨ c = d)
    (hblanks : ∀ b ∈ blanks, Text.isBlank b = true) (xs ys : List (Item String)) :
    terms d (xs ++ (blanks ++ [c]).map char ++ ys) = terms d (xs ++ [c].map char ++ ys) := by
  have hblank : (char c : Item String).isBlank = false := (Dialect.not_blank_of_mark hd (.inr hc)).1
  have hsplit : xs ++ (blanks ++ [c]).map char ++ ys = xs ++ blanks.map char ++ char c :: ys := by simp
  rw [hsplit, List.append_assoc xs ([c].map char), List.map_singleton, List.singleton_append, terms, terms,
    collapseFrom_append_cons hblank, collapseFrom_append_cons hblank]
  rcases collapseFrom_append_blanks (isBlank_of_mem_map_char hblanks) xs with hsame | hspace
  · rw [hsame]
  · rw [hspace, List.append_assoc]
    simp only [literalItems_append, literalItems_cons_char]
    exact readTerms_insert_before hd hname hc _ _

theorem terms_run {blanks' : List Char} (hne : blanks ≠ []) (hblanks : ∀ b ∈ blanks, Text.isBlank b = true)
    (hne' : blanks' ≠ []) (hblanks' : ∀ b ∈ blanks', Text.isBlank b = true) (xs ys : List (Item String)) :
    terms d (xs ++ blanks'.map char ++ ys) = terms d (xs ++ blanks.map char ++ ys) := by
  have hmap : ∀ {bs : List Char}, bs ≠ [] → bs.map (char : Char → Item String) ≠ [] := by simp
  rw [terms, terms, collapseFrom_run (hmap hne') (isBlank_of_mem_map_char hblanks') (hmap hne)
    (isBlank_of_mem_map_char hblanks)]

/-- Blanks at the ends do not matter. -/
theorem terms_ends {left right : List Char} (hd : Dialect.isUsable d = true)
    (hleft : ∀ b ∈ left, Text.isBlank b = true) (hright : ∀ b ∈ right, Text.isBlank b = true)
    (items : List (Item String)) : terms d (left.map char ++ items ++ right.map char) = terms d items := by
  have hstart : terms d (left.map char ++ items) = terms d items := by
    rw [terms, terms]
    rcases collapseFrom_blanks_append (isBlank_of_mem_map_char hleft) items with hsame | hspace
    · rw [hsame]
    · rw [hspace, literalItems_cons_char]
      exact readTerms_space hd _
  rw [← hstart, terms, terms]
  rcases collapseFrom_append_blanks (isBlank_of_mem_map_char hright) (left.map char ++ items) with hsame | hspace
  · rw [hsame]
  · rw [hspace, literalItems_append]
    exact readTerms_append_space _

end Item

/-! ## Changes of the layout -/

namespace Text

variable {d : Char}

theorem quoteMark_not_mem_of_blank (h : ∀ b ∈ blanks, isBlank b = true) : quoteMark ∉ blanks :=
  fun hquote => absurd (h _ hquote) (by decide)

/-- No quote comes or goes. -/
theorem Reflow.not_quote (hd : Dialect.isUsable d = true) (h : Reflow d old new) :
    quoteMark ∉ old ∧ quoteMark ∉ new := by
  cases h with
  | @after c blanks hc hblanks =>
    obtain ⟨-, hne⟩ := Dialect.not_blank_of_mark hd (hc.imp_right .inr)
    simp [hne, quoteMark_not_mem_of_blank hblanks]
  | @before c blanks hc hblanks =>
    obtain ⟨-, hne⟩ := Dialect.not_blank_of_mark hd (.inr hc)
    simp [hne, quoteMark_not_mem_of_blank hblanks]
  | run hne hblanks hne' hblanks' =>
    exact ⟨quoteMark_not_mem_of_blank hblanks, quoteMark_not_mem_of_blank hblanks'⟩

theorem Reflow.terms_eq (hd : Dialect.isUsable d = true) (hname : isNameChar d = false) (h : Reflow d old new)
    (xs ys : List (Item String)) :
    Item.terms d (xs ++ new.map .char ++ ys) = Item.terms d (xs ++ old.map .char ++ ys) := by
  cases h with
  | after hc hblanks => exact Item.terms_after hd hname hc hblanks xs ys
  | before hc hblanks => exact Item.terms_before hd hname hc hblanks xs ys
  | run hne hblanks hne' hblanks' => exact Item.terms_run hne hblanks hne' hblanks' xs ys

/-- The number of quotes stays the same. -/
theorem Relaid.count_eq (hd : Dialect.isUsable d = true) (h : Relaid d source other) :
    other.count quoteMark = source.count quoteMark := by
  cases h with
  | ends source hleft hright =>
    simp [List.count_eq_zero_of_not_mem (quoteMark_not_mem_of_blank hleft),
      List.count_eq_zero_of_not_mem (quoteMark_not_mem_of_blank hright)]
  | inside before after heven hflow =>
    obtain ⟨hold, hnew⟩ := hflow.not_quote hd
    simp [List.count_eq_zero_of_not_mem hold, List.count_eq_zero_of_not_mem hnew]

/-- **A change of the layout, item by item.** The items are read to the same terms. -/
theorem Relaid.exists_items (hd : Dialect.isUsable d = true) (hname : isNameChar d = false)
    (h : Relaid d source other) (heven : Even (source.count quoteMark)) :
    ∃ items items', Item.Unquoted items ∧ items.flatMap Item.spell = source ∧
      Item.Unquoted items' ∧ items'.flatMap Item.spell = other ∧ Item.terms d items' = Item.terms d items := by
  cases h with
  | @ends left right source hleft hright =>
    obtain ⟨items, hitems, rfl⟩ := Item.exists_unquoted_of_even heven
    refine ⟨items, left.map .char ++ items ++ right.map .char, hitems, rfl, ?_, ?_,
      Item.terms_ends hd hleft hright items⟩
    · rw [Item.unquoted_append, Item.unquoted_append, Item.unquoted_map_char, Item.unquoted_map_char]
      exact ⟨⟨quoteMark_not_mem_of_blank hleft, hitems⟩, quoteMark_not_mem_of_blank hright⟩
    · simp only [List.flatMap_append, Item.flatMap_spell_map_char]
  | @inside old new before after hbefore hflow =>
    obtain ⟨hold, hnew⟩ := hflow.not_quote hd
    have hafter : Even (after.count quoteMark) := by
      rw [List.count_append, List.count_append, List.count_eq_zero_of_not_mem hold, Nat.add_zero] at heven
      exact (Nat.even_add.mp heven).mp hbefore
    obtain ⟨xs, hxs, rfl⟩ := Item.exists_unquoted_of_even hbefore
    obtain ⟨ys, hys, rfl⟩ := Item.exists_unquoted_of_even hafter
    refine ⟨xs ++ old.map .char ++ ys, xs ++ new.map .char ++ ys, ?_, ?_, ?_, ?_, hflow.terms_eq hd hname xs ys⟩
    · exact Item.unquoted_append.mpr ⟨Item.unquoted_append.mpr ⟨hxs, Item.unquoted_map_char.mpr hold⟩, hys⟩
    · simp only [List.flatMap_append, Item.flatMap_spell_map_char]
    · exact Item.unquoted_append.mpr ⟨Item.unquoted_append.mpr ⟨hxs, Item.unquoted_map_char.mpr hnew⟩, hys⟩
    · simp only [List.flatMap_append, Item.flatMap_spell_map_char]

end Text

namespace Dialect

variable {d : Dialect}

/-- What is read depends on the terms of the items. -/
theorem read_spell_iff {items : List (Item String)} {forest : Forest} (h : Item.Unquoted items) :
    (d.read (.ofList (items.flatMap Item.spell))).result = .ok forest ↔ isUsable d.delimiter = true ∧
      ∃ terms, Item.terms d.delimiter items = some terms ∧ Term.heights terms < d.maxDepth ∧
        Forest.ofTerms terms = forest := by
  obtain ⟨lexemes, hscan, hcollapse⟩ := Item.exists_scan_spell_unquoted h
  rw [read_eq_ok_iff, Item.terms, ← hcollapse]
  refine and_congr_right fun _ => ⟨?_, fun ⟨terms, hterms⟩ => ⟨lexemes, terms, hscan, hterms⟩⟩
  rintro ⟨lexemes', terms, hscan', hterms⟩
  obtain rfl := Except.ok.inj (hscan.symm.trans hscan')
  exact ⟨terms, hterms⟩

theorem not_read_of_odd {forest : Forest} (h : ¬ Even (source.count quoteMark)) :
    ¬ (d.read (.ofList source)).result = .ok forest := by
  intro hread
  obtain ⟨-, lexemes, terms, hscan, -⟩ := read_eq_ok_iff.mp hread
  have heven := Lexeme.even_of_scan hscan
  rw [String.toList_ofList] at heven
  exact h heven

/-- One change of the layout does not change what is read. -/
theorem read_iff_of_relaid (hname : isNameChar d.delimiter = false) (h : Text.Relaid d.delimiter source other)
    (forest : Forest) :
    (d.read (.ofList source)).result = .ok forest ↔ (d.read (.ofList other)).result = .ok forest := by
  by_cases hd : isUsable d.delimiter = true
  · by_cases heven : Even (source.count quoteMark)
    · obtain ⟨items, items', hitems, rfl, hitems', rfl, hterms⟩ := h.exists_items hd hname heven
      rw [read_spell_iff hitems, read_spell_iff hitems', hterms]
    · have hother : ¬ Even (other.count quoteMark) := by rwa [h.count_eq hd]
      exact iff_of_false (not_read_of_odd heven) (not_read_of_odd hother)
  · exact iff_of_false (fun hread => hd (read_eq_ok_iff.mp hread).1) fun hread => hd (read_eq_ok_iff.mp hread).1

/-- **Layout does not matter.** Sources that differ by blanks at the ends, beside parentheses and delimiters and in runs
of blanks are read to the same forest, or are both refused. -/
theorem read_relaid (d : Dialect) (hname : isNameChar d.delimiter = false) {source other : String}
    (h : Relation.ReflTransGen (Text.Relaid d.delimiter) source.toList other.toList) (forest : Forest) :
    (d.read source).result = .ok forest ↔ (d.read other).result = .ok forest := by
  have hchange : ∀ {cs}, Relation.ReflTransGen (Text.Relaid d.delimiter) source.toList cs →
      ((d.read source).result = .ok forest ↔ (d.read (.ofList cs)).result = .ok forest) := by
    intro cs h
    induction h with
    | refl => rw [String.ofList_toList]
    | tail _ hstep ih => exact ih.trans (read_iff_of_relaid hname hstep forest)
  rw [hchange h, String.ofList_toList]

/-- A line feed, an ideographic space, a space and a line separator. -/
theorem read_relaid_wide : ∃ forest, (Dialect.read {} "f(a,b) c").result = .ok forest ∧
    (Dialect.read {} "\nf(\u3000a ,b)\u2028c").result = .ok forest := by
  have hblank : ∀ c, Text.isBlank c = true → ∀ b ∈ [c], Text.isBlank b = true :=
    fun _ hc => List.forall_mem_singleton.mpr hc
  have hends := @Text.Relaid.ends ',' ['\n'] [] ['f', '(', 'a', ',', 'b', ')', ' ', 'c'] (hblank '\n' rfl)
    (List.forall_mem_nil _)
  have hafter := Text.Relaid.inside (d := ',') ['\n', 'f'] ['a', ',', 'b', ')', ' ', 'c'] (by decide)
    (.after (.inl rfl) (hblank '\u3000' rfl))
  have hbefore := Text.Relaid.inside (d := ',') ['\n', 'f', '(', '\u3000', 'a'] ['b', ')', ' ', 'c'] (by decide)
    (.before (.inr rfl) (hblank ' ' rfl))
  have hrun := Text.Relaid.inside (d := ',') ['\n', 'f', '(', '\u3000', 'a', ' ', ',', 'b', ')'] ['c'] (by decide)
    (.run (List.cons_ne_nil ' ' []) (hblank ' ' rfl) (List.cons_ne_nil '\u2028' []) (hblank '\u2028' rfl))
  have hsource : (Dialect.read {} "f(a,b) c").result =
      .ok ⟨⟨#[.variable "a", .variable "b", .call "f" [⟨0⟩, ⟨1⟩], .variable "c"]⟩, [⟨2⟩, ⟨3⟩]⟩ := rfl
  refine ⟨_, hsource, (read_relaid {} (by decide) ?_ _).mp hsource⟩
  exact (((Relation.ReflTransGen.single hends).tail hafter).tail hbefore).tail hrun

end Dialect

end CallExpr

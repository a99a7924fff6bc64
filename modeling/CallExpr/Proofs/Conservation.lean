import CallExpr.Proofs.Lexemes
import CallExpr.Proofs.Writing

/-!
# Nothing of a source is lost

A source and the text of its forest differ in blanks outside of quotes only.

* `Text.squeeze`: a text without the blanks outside of its quotes.
* `Item.solid`: the items that are no spaces. They are what squeezing leaves, of written lexemes
  (`Lexeme.squeezeFrom_flatMap_write`) and of spaced items that are spelled out
  (`Item.Spaced.squeezeFrom_flatMap_spell`).
* `Grammar.IsForest.solid_eq`: the terms of a derivation are written with the solid items that they derive from, in the
  same order.
* `Dialect.squeeze_write`: so squeezing makes the source and the text of its forest equal.
-/

namespace CallExpr

namespace Text

/-- Deletes the blanks outside of quotes; `inQuotes` says whether the characters start inside of a literal. -/
def squeezeFrom : (inQuotes : Bool) → List Char → List Char
  | _, [] => []
  | inQuotes, c :: cs =>
    if c = quoteMark then c :: squeezeFrom (!inQuotes) cs
    else if isBlank c && !inQuotes then squeezeFrom inQuotes cs
    else c :: squeezeFrom inQuotes cs

/-- The text without the blanks outside of its quotes. -/
def squeeze (s : String) : String :=
  .ofList (squeezeFrom false s.toList)

variable {c : Char} {cs rest : List Char}

/-- Text up to a quote or the end loses its blanks. -/
theorem squeezeFrom_append (h : quoteMark ∉ cs) (rest : List Char) :
    squeezeFrom false (cs ++ rest) = cs.filter (fun c => !isBlank c) ++ squeezeFrom false rest := by
  induction cs with
  | nil => rfl
  | cons c cs ih =>
    simp only [List.mem_cons, not_or] at h
    rw [List.cons_append, squeezeFrom, if_neg (Ne.symm h.1), ih h.2]
    cases hblank : isBlank c <;> simp [hblank]

/-- A literal stays as it is. -/
theorem squeezeFrom_literal (h : quoteMark ∉ cs) (rest : List Char) :
    squeezeFrom false (quoteMark :: cs ++ quoteMark :: rest) =
      quoteMark :: cs ++ quoteMark :: squeezeFrom false rest := by
  have hcontent : squeezeFrom true (cs ++ quoteMark :: rest) = cs ++ quoteMark :: squeezeFrom false rest := by
    induction cs with
    | nil => simp [squeezeFrom]
    | cons c cs ih =>
      simp only [List.mem_cons, not_or] at h
      rw [List.cons_append, squeezeFrom, if_neg (Ne.symm h.1), ih h.2]
      simp
  rw [List.cons_append, squeezeFrom, if_pos rfl, Bool.not_false, hcontent]
  rfl

/-- Collapsing leaves the characters that are not blank. -/
theorem filter_collapseFrom (inRun : Bool) (cs : List Char) :
    (collapseFrom inRun cs).filter (· != ' ') = cs.filter fun c => !isBlank c := by
  induction cs generalizing inRun with
  | nil => cases inRun <;> rfl
  | cons c cs ih =>
    rw [collapseFrom]
    cases hblank : isBlank c with
    | true => cases inRun <;> simp [hblank, ih]
    | false =>
      have hspace : c ≠ ' ' := by
        rintro rfl
        rw [isBlank_space] at hblank
        cases hblank
      simp [hblank, hspace, ih]

end Text

/-! ## Solid items -/

namespace Item

variable {α : Type} {xs ys : List (Item α)}

/-- The items that are no spaces. -/
def solid (items : List (Item α)) : List (Item α) :=
  items.filter fun x => !x.isSpace

@[simp]
theorem solid_nil : solid ([] : List (Item α)) = [] := rfl

@[simp]
theorem solid_append (xs ys : List (Item α)) : solid (xs ++ ys) = solid xs ++ solid ys :=
  List.filter_append xs ys

@[simp]
theorem solid_cons_token (a : α) (xs : List (Item α)) : solid (.token a :: xs) = .token a :: solid xs := rfl

theorem solid_cons_char {c : Char} (hc : c ≠ ' ') (xs : List (Item α)) :
    solid (.char c :: xs) = .char c :: solid xs := by
  simp [solid, isSpace, hc]

theorem solid_cons (x : Item α) (xs : List (Item α)) : solid (x :: xs) = solid [x] ++ solid xs :=
  solid_append [x] xs

@[simp]
theorem solid_cons_space (xs : List (Item α)) : solid (.char ' ' :: xs) = solid xs := rfl

@[simp]
theorem solid_spaces (n : Nat) : solid (Grammar.spaces n : List (Item α)) = [] := by
  simp [solid, Grammar.spaces, isSpace]

theorem solid_map_char (cs : List Char) :
    solid (cs.map (char : Char → Item α)) = (cs.filter (· != ' ')).map char := by
  rw [solid, List.filter_map]
  rfl

/-- Squeezing spaced items that are spelled out leaves the solid ones. -/
theorem Spaced.squeezeFrom_flatMap_spell {items : List (Item String)} (h : Spaced items)
    (hliterals : ∀ content ∈ tokens items, quoteMark ∉ content.toList) :
    Text.squeezeFrom false (items.flatMap spell) = (solid items).flatMap spell := by
  induction items with
  | nil => rfl
  | cons x items ih =>
    have hrest : Spaced items := (Spaced.append (show Spaced ([x] ++ items) from h)).2
    cases x with
    | char c =>
      obtain ⟨hquote, hspace⟩ := h.char c List.mem_cons_self
      have ih := ih hrest hliterals
      rw [List.flatMap_cons, spell, List.singleton_append, Text.squeezeFrom, if_neg hquote, ih]
      by_cases hc : c = ' '
      · subst hc
        simp [Text.isBlank_space]
      · have hblank : Text.isBlank c = false := by
          rw [Bool.eq_false_iff]
          exact fun hblank => hc (hspace hblank)
        rw [solid_cons_char hc]
        simp [hblank, spell]
    | token content =>
      rw [tokens_cons_token] at hliterals
      obtain ⟨hcontent, hliterals⟩ := List.forall_mem_cons.mp hliterals
      have hspell : (token content :: items).flatMap spell =
          quoteMark :: content.toList ++ quoteMark :: items.flatMap spell := by
        simp [spell]
      rw [hspell, Text.squeezeFrom_literal hcontent, ih hrest hliterals, solid_cons_token]
      simp [spell]

end Item

/-- Squeezing written lexemes leaves the solid items. -/
theorem Lexeme.squeezeFrom_flatMap_write {lexemes : List Lexeme} (h : ∀ l ∈ lexemes, l.Clean) :
    Text.squeezeFrom false (lexemes.flatMap write) = (Item.solid (Item.ofLexemes lexemes)).flatMap Item.spell := by
  induction lexemes with
  | nil => rfl
  | cons l lexemes ih =>
    obtain ⟨hl, h⟩ := List.forall_mem_cons.mp h
    have hitems : Item.ofLexemes (l :: lexemes) = Item.ofLexeme l ++ Item.ofLexemes lexemes := rfl
    rw [List.flatMap_cons, hitems, Item.solid_append, List.flatMap_append, ← ih h]
    cases l with
    | text s =>
      rw [write, Text.squeezeFrom_append hl, Item.ofLexeme, Item.solid_map_char, Item.flatMap_spell_map_char,
        Text.collapse, String.toList_ofList, Text.filter_collapseFrom]
    | literal content =>
      have hwrite : write (.literal content) ++ lexemes.flatMap write =
          quoteMark :: content.toList ++ quoteMark :: lexemes.flatMap write := by
        simp [write]
      rw [hwrite, Text.squeezeFrom_literal hl]
      simp [Item.ofLexeme, Item.spell]

/-! ## Derivations -/

namespace Grammar

variable {d : Char} {items : List (Item Term)} {t : Term} {terms : List Term}

/-- The items with each token written as its term. -/
def expand (d : Char) (items : List (Item Term)) : List (Item String) :=
  items.flatMap fun
    | .char c => [.char c]
    | .token t => t.items d

@[simp]
theorem expand_nil : expand d [] = [] := rfl

@[simp]
theorem expand_append (xs ys : List (Item Term)) : expand d (xs ++ ys) = expand d xs ++ expand d ys :=
  List.flatMap_append

@[simp]
theorem expand_cons_char (c : Char) (xs : List (Item Term)) : expand d (.char c :: xs) = .char c :: expand d xs := rfl

@[simp]
theorem expand_cons_token (t : Term) (xs : List (Item Term)) : expand d (.token t :: xs) = t.items d ++ expand d xs :=
  rfl

@[simp]
theorem expand_map_char (cs : List Char) : expand d (cs.map .char) = cs.map .char := by
  induction cs with
  | nil => rfl
  | cons c cs ih => rw [List.map_cons, expand_cons_char, ih, List.map_cons]

@[simp]
theorem expand_spaces (n : Nat) : expand d (spaces n) = spaces n := by
  rw [spaces_eq_map, expand_map_char, ← spaces_eq_map]

/-- A literal is one item. -/
theorem expand_literalItems (items : List (Item String)) : expand d (literalItems items) = items := by
  induction items with
  | nil => rfl
  | cons x items ih =>
    have hcons : literalItems (x :: items) = x.map .literal :: literalItems items := rfl
    cases x with
    | char c => rw [hcons, Item.map, expand_cons_char, ih]
    | token content => rw [hcons, Item.map, expand_cons_token, ih, Term.items, List.singleton_append]

theorem solid_itemsAll_cons (t : Term) (h : terms ≠ []) : Item.solid (Term.itemsAll d (t :: terms)) =
    Item.solid (t.items d) ++ (Item.solid [.char d] ++ Item.solid (Term.itemsAll d terms)) := by
  cases terms with
  | nil => exact absurd rfl h
  | cons u terms =>
    rw [Term.itemsAll, Item.solid_append, Item.solid_cons (.char d), Item.solid_cons_space]

theorem solid_rootItems_cons (t : Term) (terms : List Term) : Item.solid (Term.rootItems d (t :: terms)) =
    Item.solid (t.items d) ++ Item.solid (Term.rootItems d terms) := by
  cases terms with
  | nil => simp [Term.rootItems]
  | cons u terms => rw [Term.rootItems, Item.solid_append, Item.solid_cons_space]

theorem IsArguments.ne_nil (h : IsArguments d items terms) : terms ≠ [] := by
  cases h <;> exact List.cons_ne_nil _ _

mutual

/-- A call is written with the solid items that it derives from. -/
theorem IsCall.solid_eq : ∀ {items : List (Item Term)} {t : Term}, IsCall d items t →
    Item.solid (expand d items) = Item.solid (t.items d)
  | _, _, .mk _ hbody => by
    simp [Term.items, Item.solid_cons_char, hbody.solid_eq]

theorem IsBody.solid_eq : ∀ {items : List (Item Term)} {ts : List Term}, IsBody d items ts →
    Item.solid (expand d items) = Item.solid (Term.itemsAll d ts)
  | _, _, .empty n => by simp [Term.itemsAll]
  | _, _, .arguments hargs _ => hargs.solid_eq

theorem IsArguments.solid_eq : ∀ {items : List (Item Term)} {ts : List Term}, IsArguments d items ts →
    Item.solid (expand d items) = Item.solid (Term.itemsAll d ts)
  | _, _, .one harg => harg.solid_eq
  | _, _, .cons harg hrest => by
    rw [expand_append, Item.solid_append, harg.solid_eq, expand_cons_char, Item.solid_cons, hrest.solid_eq,
      solid_itemsAll_cons _ hrest.ne_nil]

theorem IsArgument.solid_eq : ∀ {items : List (Item Term)} {t : Term}, IsArgument d items t →
    Item.solid (expand d items) = Item.solid (t.items d)
  | _, _, .known m n t => by simp
  | _, _, .call m n hcall => by simp [hcall.solid_eq]
  | _, _, .phrase m n _ => by simp [Term.items]

end

theorem IsTop.solid_eq (h : IsTop d items t) : Item.solid (expand d items) = Item.solid (t.items d) := by
  cases h with
  | known t => simp
  | call hcall => exact hcall.solid_eq
  | word _ => simp [Term.items]

/-- **The terms of a derivation are written with the solid items that they derive from.** -/
theorem IsForest.solid_eq (h : IsForest d items terms) :
    Item.solid (expand d items) = Item.solid (Term.rootItems d terms) := by
  obtain ⟨n, rest, rfl, hsequence⟩ := h
  rw [expand_append, Item.solid_append, expand_spaces, Item.solid_spaces, List.nil_append]
  induction hsequence with
  | nil => rfl
  | last htop => exact htop.solid_eq
  | cons n htop _ ih =>
    rw [expand_append, expand_append, expand_spaces, Item.solid_append, Item.solid_append, Item.solid_spaces,
      List.append_nil, htop.solid_eq, ih, solid_rootItems_cons]

end Grammar

/-! ## Sources -/

namespace Dialect

variable {d : Dialect} {source : String} {forest : Forest}

/-- **Nothing of a source is lost, invented or reordered.** Without the blanks outside of quotes the source and the text
of its forest, with the same delimiter, are equal. -/
theorem squeeze_write (h : (d.read source).result = .ok forest) :
    Text.squeeze (forest.write d.delimiter) = Text.squeeze source := by
  obtain ⟨hd, lexemes, terms, hscan, hterms, -, rfl⟩ := read_eq_ok_iff.mp h
  have hwritable := writable_of_readTerms hscan hterms
  have htokens := tokensAll_of_readTerms hscan hterms
  have hlinear := Forest.linear_ofTerms htokens
  have hwrite := Forest.write_eq hlinear.ordered (fun u hu => hlinear.stored u (List.mem_append_left _ hu)) d.delimiter
  rw [Forest.map_termAt_roots htokens] at hwrite
  have hsolid := (isForest_of_readTerms hterms).solid_eq
  rw [Grammar.expand_literalItems] at hsolid
  rw [Text.squeeze, Text.squeeze, hwrite, String.toList_ofList,
    (Term.spaced_rootItems hd hwritable).squeezeFrom_flatMap_spell
      (Term.not_quote_rootItems fun t ht => (hwritable t ht).1),
    ← hsolid, ← Lexeme.squeezeFrom_flatMap_write (Lexeme.clean_of_scan hscan), Lexeme.flatMap_write_of_scan hscan]

theorem squeeze_write_comma : ∃ forest,
    (Dialect.read {} " f(\tx  y ,g( ' a, b' ),\n)\u00a0 z ").result = .ok forest ∧
    forest.write = "f(x y, g(' a, b'), ) z" ∧
    Text.squeeze forest.write = Text.squeeze " f(\tx  y ,g( ' a, b' ),\n)\u00a0 z " ∧
    Text.squeeze forest.write = "f(xy,g(' a, b'),)z" := by
  have hread : (Dialect.read {} " f(\tx  y ,g( ' a, b' ),\n)\u00a0 z ").result =
      .ok ⟨⟨#[.literal " a, b", .call "g" [⟨0⟩], .variable "x y", .variable "", .call "f" [⟨2⟩, ⟨1⟩, ⟨3⟩],
        .variable "z"]⟩, [⟨4⟩, ⟨5⟩]⟩ := rfl
  have hsqueeze := squeeze_write hread
  exact ⟨_, hread, rfl, hsqueeze, rfl⟩

end Dialect

end CallExpr

import CallExpr.Proofs.Placing
import CallExpr.Source.Reading

/-!
# The contents of literals do not matter

Two sources that differ in nothing but the contents of their literals are read side by side.

* `SameOutcome R`: two results, either values of which `R` holds or the same error.
* `Item.shape_ofLexemes`, `Item.tokens_ofLexemes`: the text of a source gives the shape of its items, the contents of
  its literals give their tokens.
* `Store.Alike before before'`: two stores with these entries at their start and after them the same, no literals among
  them. Every insertion that is no literal keeps this, and issues the same token (`Store.Alike.insert`).
* `Dialect.sameOutcome_resolve`, `Dialect.sameOutcome_passes`: so does one pass, and so do all of them.
* `Dialect.read_of_same_text`: the forests differ in the literals at the start of their stores only.
-/

namespace CallExpr

/-- Both are values of which `R` holds, or both are the same error. -/
inductive SameOutcome {ε α β : Type} (R : α → β → Prop) : Except ε α → Except ε β → Prop
  | ok {a : α} {b : β} : R a b → SameOutcome R (.ok a) (.ok b)
  | error (e : ε) : SameOutcome R (.error e) (.error e)

namespace SameOutcome

variable {ω ε α β γ δ : Type} {R : α → β → Prop} {S : γ → δ → Prop} {x : Traced ω ε α} {y : Traced ω ε β}
  {f : α → Traced ω ε γ} {g : β → Traced ω ε δ}

/-- What goes on with related values in the same way has the same outcome. -/
theorem bind (h : SameOutcome R x.result y.result) (hfg : ∀ {a b}, R a b → SameOutcome S (f a).result (g b).result) :
    SameOutcome S (x >>= f).result (y >>= g).result := by
  generalize hx : x.result = r at h
  generalize hy : y.result = r' at h
  cases h with
  | ok hab =>
    rw [Traced.bind_of_ok hx, Traced.bind_of_ok hy]
    exact hfg hab
  | error e =>
    rw [Traced.bind_of_error hx, Traced.bind_of_error hy]
    exact .error e

theorem exists_of_ok {r : Except ε α} {r' : Except ε β} {a : α} (h : SameOutcome R r r') (hr : r = .ok a) :
    ∃ b, r' = .ok b ∧ R a b := by
  subst hr
  cases h with
  | ok hab => exact ⟨_, rfl, hab⟩

theorem eq_error {r : Except ε α} {r' : Except ε β} {e : ε} (h : SameOutcome R r r') (hr : r = .error e) :
    r' = .error e := by
  subst hr
  cases h
  rfl

theorem refl (r : Except ε α) : SameOutcome Eq r r := by
  cases r with
  | ok a => exact .ok rfl
  | error e => exact .error e

/-- After the same computation. -/
theorem bind_same {f : α → Traced ω ε γ} {g : α → Traced ω ε δ} (x : Traced ω ε α)
    (hfg : ∀ a, SameOutcome S (f a).result (g a).result) : SameOutcome S (x >>= f).result (x >>= g).result :=
  bind (refl x.result) fun hab => hab ▸ hfg _

end SameOutcome

/-! ## Text and contents -/

namespace Lexeme

/-- The text of a lexeme that is no literal. -/
def text? : Lexeme → Option String
  | text s => some s
  | literal _ => none

/-- The content of a literal. -/
def content? : Lexeme → Option String
  | text _ => none
  | literal content => some content

end Lexeme

namespace Item

/-- The items of a lexeme, without the content of a literal. -/
def ofText? : Option String → List (Item Unit)
  | some s => (Text.collapse s).toList.map char
  | none => [token ()]

/-- The shape of the items is in the text. -/
theorem shape_ofLexemes (lexemes : List Lexeme) :
    shape (ofLexemes lexemes) = (lexemes.map Lexeme.text?).flatMap ofText? := by
  have hshape : ∀ l : Lexeme, shape (ofLexeme l) = ofText? l.text? := by
    intro l
    cases l with
    | text s => simp [ofLexeme, shape, Lexeme.text?, ofText?, Item.map]
    | literal content => rfl
  simp only [ofLexemes, List.flatMap_map, ← hshape]
  exact List.map_flatMap

/-- The tokens among the items are the contents. -/
theorem tokens_ofLexemes (lexemes : List Lexeme) : tokens (ofLexemes lexemes) = lexemes.filterMap Lexeme.content? := by
  induction lexemes with
  | nil => rfl
  | cons l lexemes ih =>
    rw [ofLexemes, List.flatMap_cons, tokens_append, ← ofLexemes, ih]
    cases l with
    | text s => rw [ofLexeme, tokens_map_char]; rfl
    | literal content => rfl

end Item

namespace Store

variable {s s' : Store} {before before' : List Entry} {β : Type}

/-- Storing literals adds them in their order. -/
theorem toList_insertLiterals (s : Store) (items : List (Item String)) :
    (s.insertLiterals items).1.toList = s.toList ++ (Item.tokens items).map .literal := by
  induction items generalizing s with
  | nil => simp [insertLiterals]
  | cons x items ih =>
    cases x with
    | char c => exact ih s
    | token content => simp [insertLiterals, ih]

/-- The tokens of literals do not depend on their contents. -/
theorem insertLiterals_of_shape {items items' : List (Item String)} (hsize : s.size = s'.size)
    (hshape : Item.shape items = Item.shape items') : (s.insertLiterals items).2 = (s'.insertLiterals items').2 := by
  induction items generalizing s s' items' with
  | nil =>
    cases items' with
    | nil => rfl
    | cons x items' => cases hshape
  | cons x items ih =>
    cases items' with
    | nil => cases hshape
    | cons x' items' =>
      obtain ⟨hx, hrest⟩ : _ ∧ Item.shape items = Item.shape items' := List.cons.inj hshape
      cases x with
      | char c =>
        cases x' with
        | char c' =>
          obtain rfl := Item.char.inj hx
          simp only [insertLiterals, ih hsize hrest]
        | token content' => cases hx
      | token content =>
        cases x' with
        | char c' => cases hx
        | token content' =>
          have htoken : (s.insert (.literal content)).2 = (s'.insert (.literal content')).2 := congrArg Token.mk hsize
          have hsize : (s.insert (.literal content)).1.size = (s'.insert (.literal content')).1.size := by simp [hsize]
          simp only [insertLiterals, ih hsize hrest, htoken]

/-! ## Stores side by side -/

/-- The stores start with `before` and with `before'`, and go on with the same entries, none of them a literal. -/
structure Alike (before before' : List Entry) (s s' : Store) : Prop where
  size : s.size = s'.size
  entries : ∃ rest, s.toList = before ++ rest ∧ s'.toList = before' ++ rest ∧ ∀ content, .literal content ∉ rest

/-- Stores that are alike, each with the same beside it. -/
def AlikeWith (before before' : List Entry) (r r' : Store × β) : Prop :=
  Alike before before' r.1 r'.1 ∧ r.2 = r'.2

/-- One more entry, the same in both stores. -/
theorem Alike.insert (h : Alike before before' s s') {e : Entry} (he : ∀ content, e ≠ .literal content) :
    AlikeWith before before' (s.insert e) (s'.insert e) := by
  obtain ⟨hsize, rest, hs, hs', hrest⟩ := h
  refine ⟨⟨by simp [hsize], rest ++ [e], by simp [hs], by simp [hs'], fun content hmem => ?_⟩, congrArg Token.mk hsize⟩
  rcases List.mem_append.mp hmem with hmem | hmem
  · exact hrest content hmem
  · exact he content (List.mem_singleton.mp hmem).symm

theorem Alike.insertWords (h : Alike before before' s s') (arguments : List (Argument Token)) :
    AlikeWith before before' (s.insertWords arguments) (s'.insertWords arguments) := by
  induction arguments generalizing s s' with
  | nil => exact ⟨h, rfl⟩
  | cons a arguments ih =>
    cases a with
    | token t =>
      obtain ⟨halike, hrest⟩ := ih h
      exact ⟨halike, congrArg (t :: ·) hrest⟩
    | word w =>
      obtain ⟨halike, htoken⟩ := h.insert (e := .variable w) (by simp)
      obtain ⟨halike, hrest⟩ := ih halike
      exact ⟨halike, List.cons_eq_cons.mpr ⟨htoken, hrest⟩⟩

end Store

/-! ## Reading side by side -/

namespace Dialect

variable {d : Dialect} {s s' : Store} {before before' : List Entry} {source source' : String}
  {lexemes lexemes' : List Lexeme}

/-- One pass over the same chunks. -/
theorem sameOutcome_resolve (h : s.Alike before before' s') (chunks : List (Chunk Token)) :
    SameOutcome (Store.AlikeWith before before') (d.resolve s chunks).result (d.resolve s' chunks).result := by
  induction chunks generalizing s s' with
  | nil => exact .ok ⟨h, rfl⟩
  | cons chunk chunks ih =>
    cases chunk with
    | item x =>
      rw [resolve, resolve]
      exact (ih h).bind fun ⟨halike, hitems⟩ => .ok ⟨halike, congrArg (x :: ·) hitems⟩
    | call name body =>
      rw [resolve, resolve]
      refine .bind_same _ fun arguments => ?_
      obtain ⟨hwords, htokens⟩ := h.insertWords arguments
      dsimp only
      rw [htokens]
      refine .bind_same _ fun _ => ?_
      obtain ⟨hcall, htoken⟩ := hwords.insert (e := .call (.ofList name) (s'.insertWords arguments).2) (by simp)
      rw [htoken]
      exact (ih hcall).bind fun ⟨halike, hitems⟩ => .ok ⟨halike, congrArg (Item.token _ :: ·) hitems⟩

/-- All passes over the same items. -/
theorem sameOutcome_passes (h : s.Alike before before' s') (left done : Nat) (items : List (Item Token)) :
    SameOutcome (Store.AlikeWith before before') (d.passes left done s items).result
      (d.passes left done s' items).result := by
  induction left generalizing done s s' items with
  | zero => exact .error _
  | succ left ih =>
    rw [passes, passes]
    dsimp only
    split
    · exact .ok ⟨h, rfl⟩
    · refine .bind_same _ fun _ => (sameOutcome_resolve h _).bind fun ⟨halike, hitems⟩ => ?_
      rw [hitems]
      exact ih halike _ _

/-- **The contents of literals do not matter.** If two sources have the same text and their literals in the same
places, then both are refused with the same error, or they are read to the same roots over the same entries, but for
the literals: these have the first tokens, in the order of the source, and each has its own content. -/
theorem read_of_same_text (d : Dialect) (hscan : Lexeme.scan source = .ok lexemes)
    (hscan' : Lexeme.scan source' = .ok lexemes') (htext : lexemes.map Lexeme.text? = lexemes'.map Lexeme.text?) :
    SameOutcome (fun forest forest' : Forest => forest.roots = forest'.roots ∧
        forest.store.size = forest'.store.size ∧ ∃ rest,
        forest.store.toList = (lexemes.filterMap Lexeme.content?).map .literal ++ rest ∧
        forest'.store.toList = (lexemes'.filterMap Lexeme.content?).map .literal ++ rest ∧
        ∀ content, .literal content ∉ rest)
      (d.read source).result (d.read source').result := by
  have hshape : Item.shape (Item.ofLexemes lexemes) = Item.shape (Item.ofLexemes lexemes') := by
    rw [Item.shape_ofLexemes, htext, Item.shape_ofLexemes]
  have hitems := Store.insertLiterals_of_shape (s := .empty) rfl hshape
  -- Before the first pass the stores have nothing but the literals.
  have halike : Store.Alike ((lexemes.filterMap Lexeme.content?).map .literal)
      ((lexemes'.filterMap Lexeme.content?).map .literal) (Store.empty.insertLiterals (Item.ofLexemes lexemes)).1
      (Store.empty.insertLiterals (Item.ofLexemes lexemes')).1 := by
    have hentries : ∀ lexemes, (Store.empty.insertLiterals (Item.ofLexemes lexemes)).1.toList =
        (lexemes.filterMap Lexeme.content?).map .literal := by
      intro lexemes
      rw [Store.toList_insertLiterals, Item.tokens_ofLexemes]
      rfl
    refine ⟨?_, [], by simp [hentries], by simp [hentries], by simp⟩
    have hlength := Item.length_tokens_of_shape hshape
    rw [Item.tokens_ofLexemes, Item.tokens_ofLexemes] at hlength
    simp only [Store.size_eq_length, hentries, List.length_map, hlength]
  unfold read
  split
  · rw [hscan, hscan']
    rw [Traced.bind_of_ok (a := lexemes) rfl, Traced.bind_of_ok (a := lexemes') rfl]
    dsimp only
    rw [hitems]
    refine (sameOutcome_passes halike _ _ _).bind fun ⟨halike, hitems⟩ => ?_
    rw [hitems]
    refine .bind_same _ fun arguments => ?_
    obtain ⟨⟨hsize, hentries⟩, hroots⟩ := halike.insertWords arguments
    exact .ok ⟨hroots, hsize, hentries⟩
  · exact .error _

/-- The contents look like a token, a call and a delimiter; in the second pair they stand where no literal can. -/
theorem read_of_same_text_syntax : (∃ forest forest' rest, (Dialect.read {} "f('a', x) ''").result = .ok forest ∧
      (Dialect.read {} "f('#1', x) 'g(y,'").result = .ok forest' ∧ forest.roots = forest'.roots ∧
      forest.store.toList = .literal "a" :: .literal "" :: rest ∧
      forest'.store.toList = .literal "#1" :: .literal "g(y," :: rest) ∧
    (Dialect.read {} "f('a'b)").result = .error (.malformed "#0b") ∧
    (Dialect.read {} "f(',)'b)").result = .error (.malformed "#0b") := by
  have hfirst : (Dialect.read {} "f('a', x) ''").result =
      .ok ⟨⟨#[.literal "a", .literal "", .variable "x", .call "f" [⟨0⟩, ⟨2⟩]]⟩, [⟨3⟩, ⟨1⟩]⟩ := rfl
  have hsecond : (Dialect.read {} "f('a'b)").result = .error (.malformed "#0b") := rfl
  have hread : SameOutcome _ (Dialect.read {} "f('a', x) ''").result (Dialect.read {} "f('#1', x) 'g(y,'").result :=
    read_of_same_text {} rfl rfl rfl
  have hmalformed : SameOutcome _ (Dialect.read {} "f('a'b)").result (Dialect.read {} "f(',)'b)").result :=
    read_of_same_text {} rfl rfl rfl
  obtain ⟨forest, hforest, hroots, -, rest, hstore, hstore', -⟩ := hread.exists_of_ok hfirst
  exact ⟨⟨_, forest, rest, hfirst, hforest, hroots, hstore, hstore'⟩, hsecond, hmalformed.eq_error hsecond⟩

end Dialect

end CallExpr

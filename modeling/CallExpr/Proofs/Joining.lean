import CallExpr.Proofs.Lexemes
import CallExpr.Proofs.NestingLimit
import CallExpr.Proofs.RoundTrip
import CallExpr.Proofs.Stacking

/-!
# Sources put together

* `Lexeme.exists_unquoted_of_scan`: a source spells out items, and is scanned to these items with their blanks
  collapsed.
* `Dialect.Reads`: the terms of a source. They are read from its items alone (`Dialect.reads_iff`), so that sources can
  be put together item by item.
* `Dialect.Reads.append`: two sources with blanks between them.
* `Dialect.Reads.call`: a call whose arguments are sources.
* `Dialect.read_joined`: both for any number of sources.
-/

namespace CallExpr

open Grammar

/-! ## Items of sources -/

namespace Item

variable {xs ys : List (Item String)} {cs : List Char}

theorem unquoted_append : Unquoted (xs ++ ys) ↔ Unquoted xs ∧ Unquoted ys := by
  simp only [Unquoted, List.mem_append, tokens_append, not_or, or_imp, forall_and]
  exact and_and_and_comm

theorem unquoted_map_char : Unquoted (cs.map char) ↔ quoteMark ∉ cs := by
  simp [Unquoted]

theorem unquoted_cons_char {c : Char} : Unquoted (char c :: xs) ↔ c ≠ quoteMark ∧ Unquoted xs := by
  simp only [Unquoted, List.mem_cons, tokens_cons_char, not_or, char.injEq, and_assoc, ne_comm]

/-- Inside of the parentheses, blanks are collapsed as in the source of the body. -/
theorem collapseFrom_call (hcs : ∀ c ∈ cs, Text.isBlank c = false) (body : List (Item String)) :
    collapseFrom false (cs.map char ++ char '(' :: (body ++ [char ')'])) =
      cs.map char ++ char '(' :: (collapseFrom false body ++ [char ')']) := by
  rw [collapseFrom_append_cons rfl, collapseFrom_append_cons rfl,
    collapseFrom_of_not_blank (isBlank_of_mem_map_char hcs)]
  rfl

end Item

namespace Lexeme

/-- The items of a lexeme, blanks as they are. -/
def rawItems : Lexeme → List (Item String)
  | text s => s.toList.map .char
  | literal content => [.token content]

theorem flatMap_spell_rawItems (l : Lexeme) : l.rawItems.flatMap Item.spell = l.write := by
  cases l with
  | text s => exact Item.flatMap_spell_map_char s.toList
  | literal content => simp [rawItems, write, Item.spell]

theorem Clean.unquoted {l : Lexeme} (h : l.Clean) : Item.Unquoted l.rawItems := by
  cases l with
  | text s => exact Item.unquoted_map_char.mpr h
  | literal content =>
    have hcontent : quoteMark ∉ content.toList := h
    simpa [Item.Unquoted, rawItems, Item.tokens, Item.token?] using hcontent

theorem unquoted_flatMap_rawItems {lexemes : List Lexeme} (h : ∀ l ∈ lexemes, l.Clean) :
    Item.Unquoted (lexemes.flatMap rawItems) := by
  induction lexemes with
  | nil => simp [Item.Unquoted]
  | cons l lexemes ih =>
    obtain ⟨hl, h⟩ := List.forall_mem_cons.mp h
    exact Item.unquoted_append.mpr ⟨hl.unquoted, ih h⟩

/-- **A source spells out items**, and is scanned to these items with their blanks collapsed. -/
theorem exists_unquoted_of_scan {source : String} {lexemes : List Lexeme} (h : scan source = .ok lexemes) :
    ∃ items, Item.Unquoted items ∧ source = .ofList (items.flatMap Item.spell) ∧
      Item.ofLexemes lexemes = Item.collapseFrom false items := by
  have hitems := unquoted_flatMap_rawItems (clean_of_scan h)
  have hsource : source = .ofList ((lexemes.flatMap rawItems).flatMap Item.spell) := by
    rw [← String.toList_inj, String.toList_ofList, List.flatMap_assoc, ← flatMap_write_of_scan h]
    exact List.flatMap_congr fun l _ => (flatMap_spell_rawItems l).symm
  refine ⟨_, hitems, hsource, ?_⟩
  obtain ⟨lexemes', hscan, hcollapse⟩ := Item.exists_scan_spell_unquoted hitems
  obtain rfl := Except.ok.inj (h.symm.trans (hsource ▸ hscan))
  exact hcollapse

end Lexeme

namespace ReadsForest

variable {d : Char} {items more blanks : List (Item String)} {ts us : List Term}

/-- Only the space at the start depends on what comes before the items. -/
theorem collapseFrom (h : ReadsForest d (literalItems (Item.collapseFrom false items)) ts) (inRun : Bool) :
    ReadsForest d (literalItems (Item.collapseFrom inRun items)) ts := by
  cases inRun with
  | false => exact h
  | true =>
    rcases Item.collapseFrom_false items with hsame | hspace
    · rwa [← hsame]
    · rw [hspace, literalItems_cons_char] at h
      exact h.of_space

/-- Blanks between items separate what they are read to. -/
theorem append_blanks (h : ReadsForest d (literalItems (Item.collapseFrom false items)) ts)
    (hmore : ReadsForest d (literalItems (Item.collapseFrom false more)) us) (hne : blanks ≠ [])
    (hblanks : ∀ x ∈ blanks, x.isBlank = true) :
    ReadsForest d (literalItems (Item.collapseFrom false (items ++ blanks ++ more))) (ts ++ us) := by
  obtain ⟨init, hinit, hjoin⟩ := Item.exists_collapseFrom_append items hne hblanks
  have hfirst : ReadsForest d (literalItems init) ts := by
    rcases hinit with hsame | hspace
    · rwa [← hsame]
    · rw [hspace, literalItems_append] at h
      exact h.of_append_space
  rw [hjoin, literalItems_append, literalItems_append]
  exact hfirst.append (hmore.collapseFrom true)

end ReadsForest

/-! ## Terms of sources -/

theorem Term.heights_append (ts us : List Term) : heights (ts ++ us) = max (heights ts) (heights us) := by
  induction ts with
  | nil => simp [heights]
  | cons t ts ih => rw [List.cons_append, heights, ih, heights, max_assoc]

theorem forall₂_of_mapM_eq_some {α β : Type} {f : α → Option β} {l : List α} {l' : List β}
    (h : l.mapM f = some l') : List.Forall₂ (fun a b => f a = some b) l l' := by
  induction l generalizing l' with
  | nil =>
    obtain rfl := Option.some.inj h
    exact .nil
  | cons a l ih =>
    obtain ⟨b, hb, bs, hbs, rfl⟩ := mapM_cons_eq_some_iff.mp h
    exact .cons hb (ih hbs)

/-- A forest of one call has one root, which is this call. -/
theorem Forest.Unfolds.exists_call {f : Forest} {name : String} {terms : List Term}
    (h : f.Unfolds [.call name terms]) : ∃ root arguments, f.roots = [root] ∧
      f.store.get? root = some (.call name arguments) ∧ List.Forall₂ f.store.Unfolds arguments terms := by
  obtain ⟨store, roots⟩ := f
  obtain ⟨depth, h⟩ := h
  cases forall₂_of_mapM_eq_some h with
  | @cons root _ roots _ hroot hroots =>
    obtain rfl := List.forall₂_nil_right_iff.mp hroots
    cases depth with
    | zero => cases hroot
    | succ depth =>
      cases he : store.get? root with
      | none =>
        rw [Store.unfoldWithin_of_none _ he] at hroot
        cases hroot
      | some e =>
        rw [Store.unfoldWithin_of_get? _ he] at hroot
        cases e with
        | literal | «variable» => cases hroot
        | call name' arguments =>
          obtain ⟨terms', hterms, heq⟩ := Option.map_eq_some_iff.mp hroot
          obtain ⟨rfl, rfl⟩ := Term.call.inj heq
          exact ⟨root, arguments, rfl, he, (forall₂_of_mapM_eq_some hterms).imp fun _ _ hterm => ⟨depth, hterm⟩⟩

namespace Dialect

variable {d : Dialect} {source more blanks name : String} {sources : List String} {forest : Forest}
  {terms moreTerms : List Term} {t : Term}

/-- The source is read to a forest of these terms. -/
def Reads (d : Dialect) (source : String) (terms : List Term) : Prop :=
  ∃ forest, (d.read source).result = .ok forest ∧ forest.Unfolds terms

/-- **What a source stands for** is read from its items, whose blanks may be collapsed later. -/
theorem reads_iff : d.Reads source terms ↔ isUsable d.delimiter = true ∧ Term.heights terms < d.maxDepth ∧
    ∃ items, Item.Unquoted items ∧ source = .ofList (items.flatMap Item.spell) ∧
      ReadsForest d.delimiter (literalItems (Item.collapseFrom false items)) terms := by
  constructor
  · rintro ⟨forest, hread, hunfolds⟩
    obtain ⟨hd, lexemes, read, hscan, hterms, hlt, rfl⟩ := read_eq_ok_iff.mp hread
    obtain rfl := hunfolds.unique (Forest.unfolds_ofTerms (tokensAll_of_readTerms hscan hterms))
    obtain ⟨items, hitems, hsource, hcollapse⟩ := Lexeme.exists_unquoted_of_scan hscan
    rw [hcollapse] at hterms
    exact ⟨hd, hlt, items, hitems, hsource, readsForest_iff.mpr hterms⟩
  · rintro ⟨hd, hlt, items, hitems, rfl, hreads⟩
    obtain ⟨lexemes, hscan, hcollapse⟩ := Item.exists_scan_spell_unquoted hitems
    rw [← hcollapse, readsForest_iff] at hreads
    exact ⟨_, read_eq_ok_iff.mpr ⟨hd, lexemes, terms, hscan, hreads, hlt, rfl⟩,
      Forest.unfolds_ofTerms (tokensAll_of_readTerms hscan hreads)⟩

/-- **Two sources with blanks between them** stand for the terms of both. -/
theorem Reads.append (h : d.Reads source terms) (hmore : d.Reads more moreTerms) (hne : blanks ≠ "")
    (hblanks : ∀ c ∈ blanks.toList, Text.isBlank c = true) :
    d.Reads (source ++ blanks ++ more) (terms ++ moreTerms) := by
  obtain ⟨hd, hlt, items, hitems, rfl, hreads⟩ := reads_iff.mp h
  obtain ⟨-, hlt', items', hitems', rfl, hreads'⟩ := reads_iff.mp hmore
  obtain ⟨cs, rfl⟩ : ∃ cs, blanks = String.ofList cs := ⟨blanks.toList, String.ofList_toList.symm⟩
  rw [String.toList_ofList] at hblanks
  have hspell : String.ofList (items.flatMap Item.spell) ++ .ofList cs ++ .ofList (items'.flatMap Item.spell) =
      .ofList ((items ++ cs.map Item.char ++ items').flatMap Item.spell) := by
    simp only [List.flatMap_append, Item.flatMap_spell_map_char, String.ofList_append]
  refine reads_iff.mpr ⟨hd, ?_, _, ?_, hspell, ?_⟩
  · rw [Term.heights_append]
    exact max_lt hlt hlt'
  · have hquote : quoteMark ∉ cs := fun hmem => absurd (hblanks _ hmem) (by decide)
    exact Item.unquoted_append.mpr
      ⟨Item.unquoted_append.mpr ⟨hitems, Item.unquoted_map_char.mpr hquote⟩, hitems'⟩
  · have hnil : cs.map (Item.char : Char → Item String) ≠ [] := by
      intro hcs
      rw [List.map_eq_nil_iff.mp hcs] at hne
      exact hne rfl
    exact hreads.append_blanks hreads' hnil (Item.isBlank_of_mem_map_char hblanks)

/-- Sources with delimiters between them are read to arguments, after a blank or not. -/
theorem exists_arguments (hd : isUsable d.delimiter = true) (hne : sources ≠ [])
    (h : List.Forall₂ (fun source t => d.Reads source [t]) sources terms) :
    ∃ body, Item.Unquoted body ∧
      (String.ofList [d.delimiter, ' ']).intercalate sources = .ofList (body.flatMap Item.spell) ∧
      (∃ x ∈ literalItems (Item.collapseFrom false body), x.isSpace = false) ∧
      ∀ inRun, ReadsArguments d.delimiter (literalItems (Item.collapseFrom inRun body)) terms := by
  induction h with
  | nil => exact absurd rfl hne
  | @cons source t sources terms hsource hrest ih =>
    obtain ⟨-, -, items, hitems, rfl, hreads⟩ := reads_iff.mp hsource
    obtain ⟨x, hx, hspace⟩ := hreads.exists_not_space
    have hargument : ∀ inRun, ReadsArgument d.delimiter (literalItems (Item.collapseFrom inRun items)) t :=
      fun inRun => (hreads.collapseFrom inRun).readsArgument hd
    cases hrest with
    | nil => exact ⟨items, hitems, String.intercalate_singleton, ⟨x, hx, hspace⟩, fun inRun => .one (hargument inRun)⟩
    | @cons source' _ sources _ _ _ =>
      obtain ⟨body, hbody, hspell, -, harguments⟩ := ih (List.cons_ne_nil source' sources)
      obtain ⟨hblank, -, hquote⟩ := isUsable_iff.mp hd
      have hcollapse : ∀ inRun, Item.collapseFrom inRun (items ++ .char d.delimiter :: .char ' ' :: body) =
          Item.collapseFrom inRun items ++ .char d.delimiter :: .char ' ' :: Item.collapseFrom true body :=
        fun inRun => Item.collapseFrom_append_cons (x := .char d.delimiter) hblank inRun items _
      refine ⟨items ++ .char d.delimiter :: .char ' ' :: body, ?_, ?_, ⟨x, ?_, hspace⟩, fun inRun => ?_⟩
      · rw [Item.unquoted_append, Item.unquoted_cons_char, Item.unquoted_cons_char]
        exact ⟨hitems, hquote, by decide, hbody⟩
      · rw [String.intercalate_cons_cons, hspell, ← String.ofList_append, ← String.ofList_append, List.flatMap_append,
          List.append_assoc]
        rfl
      · rw [hcollapse, literalItems_append]
        exact List.mem_append_left _ hx
      · rw [hcollapse, literalItems_append]
        exact .cons hd 1 (Or.inl Nat.one_ne_zero) (hargument inRun) (harguments true)

/-- **A call whose arguments are sources** stands for the call of their terms. -/
theorem Reads.call (hname : IsName name.toList) (hne : sources ≠ [])
    (h : List.Forall₂ (fun source t => d.Reads source [t]) sources terms) (hlt : Term.heights terms + 1 < d.maxDepth) :
    d.Reads (name ++ "(" ++ (String.ofList [d.delimiter, ' ']).intercalate sources ++ ")") [.call name terms] := by
  have hd : isUsable d.delimiter = true := by
    cases h with
    | nil => exact absurd rfl hne
    | cons hsource _ => exact (reads_iff.mp hsource).1
  obtain ⟨body, hbody, hspell, hspace, harguments⟩ := exists_arguments hd hne h
  have hchars : ∀ c ∈ name.toList, c ≠ quoteMark ∧ Text.isBlank c = false :=
    fun c hc => not_blank_of_isNameChar (hname.isNameChar c hc)
  refine reads_iff.mpr ⟨hd, ?_, name.toList.map .char ++ .char '(' :: (body ++ [.char ')']), ?_, ?_, ?_⟩
  · rw [Term.heights, Term.height, Term.heights]
    omega
  · rw [Item.unquoted_append, Item.unquoted_map_char, Item.unquoted_cons_char, Item.unquoted_append,
      Item.unquoted_cons_char]
    exact ⟨fun hquote => (hchars _ hquote).1 rfl, by decide, hbody, by decide, by simp [Item.Unquoted]⟩
  · rw [hspell, ← String.toList_inj]
    simp [Item.flatMap_spell_map_char, Item.spell]
  · have hcall := flattens_call hname (.arguments (harguments false) hspace)
    rw [String.ofList_toList, List.append_assoc, List.cons_append] at hcall
    rw [Item.collapseFrom_call fun c hc => (hchars c hc).2, literalItems_append, literalItems_map_char,
      literalItems_cons_char, literalItems_append]
    exact .last (.token hcall)

/-- Any number of sources after one, each after its blanks. -/
theorem Reads.foldl {rest : List (String × String)} {forests : List Forest} (h : d.Reads source terms)
    (hrest : List.Forall₂ (fun p f => (p.1 ≠ "" ∧ ∀ c ∈ p.1.toList, Text.isBlank c = true) ∧
      (d.read p.2).result = .ok f) rest forests) :
    ∃ termLists, List.Forall₂ Forest.Unfolds forests termLists ∧
      d.Reads (rest.foldl (fun source p => source ++ p.1 ++ p.2) source) (terms ++ termLists.flatten) := by
  induction hrest generalizing source terms with
  | nil => exact ⟨[], .nil, by rwa [List.flatten_nil, List.append_nil]⟩
  | @cons p f rest forests hp _ ih =>
    obtain ⟨⟨hne, hblanks⟩, hread⟩ := hp
    obtain ⟨more, hmore⟩ := exists_unfolds_of_read hread
    obtain ⟨termLists, hforests, hreads⟩ := ih (h.append ⟨f, hread, hmore⟩ hne hblanks)
    refine ⟨more :: termLists, .cons hmore hforests, ?_⟩
    rwa [List.flatten_cons, ← List.append_assoc]

/-- **Reading is compositional.** Sources with blanks between them are read to a forest of all their terms. Sources of
one expression each, with the delimiter and a space between them, are read as the arguments of a call, if the limit
allows one more level. -/
theorem read_joined (d : Dialect) :
    (∀ source forest (rest : List (String × String)) forests, (d.read source).result = .ok forest →
      List.Forall₂ (fun p f => (p.1 ≠ "" ∧ ∀ c ∈ p.1.toList, Text.isBlank c = true) ∧
        (d.read p.2).result = .ok f) rest forests →
      ∃ joined termLists, (d.read (rest.foldl (fun source p => source ++ p.1 ++ p.2) source)).result = .ok joined ∧
        List.Forall₂ Forest.Unfolds (forest :: forests) termLists ∧ joined.Unfolds termLists.flatten) ∧
    ∀ name sources terms, IsName name.toList → sources ≠ [] →
      List.Forall₂ (fun source t => d.Reads source [t]) sources terms → Term.heights terms + 1 < d.maxDepth →
      ∃ forest root arguments,
        (d.read (name ++ "(" ++ (String.ofList [d.delimiter, ' ']).intercalate sources ++ ")")).result = .ok forest ∧
        forest.roots = [root] ∧ forest.store.get? root = some (.call name arguments) ∧
        List.Forall₂ forest.store.Unfolds arguments terms := by
  refine ⟨fun source forest rest forests hread hrest => ?_, fun name sources terms hname hne h hlt => ?_⟩
  · obtain ⟨terms, hterms⟩ := exists_unfolds_of_read hread
    obtain ⟨termLists, hforests, joined, hjoined, hunfolds⟩ := Reads.foldl ⟨forest, hread, hterms⟩ hrest
    exact ⟨joined, terms :: termLists, hjoined, .cons hterms hforests, hunfolds⟩
  · obtain ⟨forest, hread, hunfolds⟩ := Reads.call hname hne h hlt
    obtain ⟨root, arguments, hroots, hcall, harguments⟩ := hunfolds.exists_call
    exact ⟨forest, root, arguments, hread, hroots, hcall, harguments⟩

/-- The delimiter could stand in a name. -/
theorem read_joined_letter :
    (∃ joined, (Dialect.read ⟨3, 'd'⟩ "f(xd y)\t 'a' z").result = .ok joined ∧
      joined.Unfolds [.call "f" [.variable "x", .variable "y"], .literal "a", .variable "z"]) ∧
    ∃ forest root arguments, (Dialect.read ⟨3, 'd'⟩ "g(f(xd y)d  'd(' )").result = .ok forest ∧
      forest.roots = [root] ∧ forest.store.get? root = some (.call "g" arguments) ∧
      List.Forall₂ forest.store.Unfolds arguments [.call "f" [.variable "x", .variable "y"], .literal "d("] := by
  have hcall : (Dialect.read ⟨3, 'd'⟩ "f(xd y)").result =
      .ok ⟨⟨#[.variable "x", .variable "y", .call "f" [⟨0⟩, ⟨1⟩]]⟩, [⟨2⟩]⟩ := rfl
  have hwords : (Dialect.read ⟨3, 'd'⟩ "'a' z").result = .ok ⟨⟨#[.literal "a", .variable "z"]⟩, [⟨0⟩, ⟨1⟩]⟩ := rfl
  have hliteral : (Dialect.read ⟨3, 'd'⟩ " 'd(' ").result = .ok ⟨⟨#[.literal "d("]⟩, [⟨0⟩]⟩ := rfl
  obtain ⟨hjoin, hnest⟩ := read_joined ⟨3, 'd'⟩
  have hblanks : ∀ c ∈ "\t ".toList, Text.isBlank c = true :=
    List.forall_mem_cons.mpr ⟨rfl, List.forall_mem_singleton.mpr rfl⟩
  constructor
  · obtain ⟨joined, termLists, hjoined, hterms, hunfolds⟩ :=
      hjoin "f(xd y)" _ [("\t ", "'a' z")] _ hcall (.cons ⟨⟨by decide, hblanks⟩, hwords⟩ .nil)
    cases hterms with
    | cons hfirst hterms =>
      cases hterms with
      | cons hsecond hterms =>
        cases hterms
        obtain rfl := hfirst.unique ⟨3, rfl⟩
        obtain rfl := hsecond.unique ⟨1, rfl⟩
        exact ⟨joined, hjoined, hunfolds⟩
  · have hname : IsName "g".toList := ⟨'g', [], rfl, by decide, by decide, by simp⟩
    exact hnest "g" ["f(xd y)", " 'd(' "] _ hname (List.cons_ne_nil _ _)
      (.cons ⟨_, hcall, 3, rfl⟩ (.cons ⟨_, hliteral, 1, rfl⟩ .nil)) (by decide)

end Dialect

end CallExpr

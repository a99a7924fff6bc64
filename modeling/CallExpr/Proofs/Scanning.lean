import CallExpr.Proofs.Collapsing
import Mathlib.Algebra.Group.Nat.Even
import Mathlib.Data.List.Chain

/-!
# The items of a source

* `Text.Collapsed`: characters as collapsing blanks gives them (`Text.collapsed_collapseFrom`). No two spaces are side
  by side (`Text.Collapsed.not_infix`).
* `Item.Spaced`: items whose characters are collapsed and are no quotes. Collapsing leaves them as they are
  (`Item.collapseFrom_of_spaced`).
* `Lexeme.exists_scan_of_even`: a source with an even number of quotes has lexemes.
* `Item.spaced_ofLexemes`: the items of a source are spaced, and no literal has a quote in it.
* `Item.exists_scan_spell_unquoted`: items without quotes, spelled out, are scanned to the collapsed items. If they are
  spaced, these are the items themselves (`Item.exists_scan_spell`).
-/

namespace CallExpr

namespace Text

variable {cs : List Char}

/-- Every blank character is a space, and no two spaces are side by side. -/
structure Collapsed (cs : List Char) : Prop where
  blank : ∀ c ∈ cs, isBlank c = true → c = ' '
  apart : cs.IsChain fun a b => ¬ (a = ' ' ∧ b = ' ')

/-- No two spaces are side by side in collapsed characters. -/
theorem Collapsed.not_infix (h : Collapsed cs) : ¬ [' ', ' '] <:+: cs := by
  intro hinfix
  have hpair := h.apart.infix hinfix
  exact List.isChain_pair.mp hpair ⟨rfl, rfl⟩

/-- Collapsing gives collapsed characters, and no space right after a run of blanks. -/
theorem collapsed_collapseFrom (inRun : Bool) (cs : List Char) :
    Collapsed (collapseFrom inRun cs) ∧ (inRun = true → (collapseFrom inRun cs).head? ≠ some ' ') := by
  induction cs generalizing inRun with
  | nil => exact ⟨⟨by simp [collapseFrom], by simp [collapseFrom]⟩, by simp [collapseFrom]⟩
  | cons c cs ih =>
    rw [collapseFrom]
    split
    · obtain ⟨hcollapsed, hhead⟩ := ih true
      split
      · next hrun => exact ⟨hcollapsed, fun _ => hhead rfl⟩
      · next hrun =>
        refine ⟨⟨?_, List.isChain_cons.mpr ⟨?_, hcollapsed.apart⟩⟩, fun h => absurd h hrun⟩
        · exact List.forall_mem_cons.mpr ⟨fun _ => rfl, hcollapsed.blank⟩
        · rintro x hx ⟨-, rfl⟩
          exact hhead rfl hx
    · next hblank =>
      have hspace : c ≠ ' ' := by
        rintro rfl
        exact hblank isBlank_space
      obtain ⟨hcollapsed, -⟩ := ih false
      refine ⟨⟨?_, List.isChain_cons.mpr ⟨?_, hcollapsed.apart⟩⟩, fun _ h => hspace (Option.some.inj h)⟩
      · exact List.forall_mem_cons.mpr ⟨fun h => absurd h hblank, hcollapsed.blank⟩
      · rintro x - ⟨h, -⟩
        exact hspace h

/-- Collapsing adds no characters but spaces. -/
theorem mem_of_mem_collapseFrom {inRun : Bool} {x : Char} (hx : x ∈ collapseFrom inRun cs) (hspace : x ≠ ' ') :
    x ∈ cs := by
  induction cs generalizing inRun with
  | nil => simp [collapseFrom] at hx
  | cons c cs ih =>
    rw [collapseFrom] at hx
    split at hx
    · split at hx
      · exact List.mem_cons_of_mem c (ih hx)
      · rcases List.mem_cons.mp hx with rfl | hx
        · exact absurd rfl hspace
        · exact List.mem_cons_of_mem c (ih hx)
    · rcases List.mem_cons.mp hx with rfl | hx
      · exact List.mem_cons_self
      · exact List.mem_cons_of_mem c (ih hx)

end Text

/-! ## Spaced items -/

namespace Item

variable {α β : Type} {xs ys items : List (Item α)} {cs : List Char}

/-- The characters are no quotes, their blanks are spaces, and no two spaces are side by side. -/
structure Spaced (items : List (Item α)) : Prop where
  char : ∀ c, Item.char c ∈ items → c ≠ quoteMark ∧ (Text.isBlank c = true → c = ' ')
  apart : items.IsChain fun x y => ¬ (x.isSpace = true ∧ y.isSpace = true)

/-- Not both are spaces. -/
def Apart (x y : Option (Item α)) : Prop :=
  ∀ a ∈ x, ∀ b ∈ y, ¬ (a.isSpace = true ∧ b.isSpace = true)

theorem spaced_append : Spaced (xs ++ ys) ↔ Spaced xs ∧ Spaced ys ∧ Apart xs.getLast? ys.head? := by
  constructor
  · intro h
    obtain ⟨hx, hy, hjoin⟩ := List.isChain_append.mp h.apart
    exact ⟨⟨fun c hc => h.char c (List.mem_append_left ys hc), hx⟩,
      ⟨fun c hc => h.char c (List.mem_append_right xs hc), hy⟩, hjoin⟩
  · rintro ⟨hx, hy, hjoin⟩
    refine ⟨fun c hc => ?_, List.isChain_append.mpr ⟨hx.apart, hy.apart, hjoin⟩⟩
    rcases List.mem_append.mp hc with hc | hc
    · exact hx.char c hc
    · exact hy.char c hc

theorem Spaced.append (h : Spaced (xs ++ ys)) : Spaced xs ∧ Spaced ys :=
  ⟨(spaced_append.mp h).1, (spaced_append.mp h).2.1⟩

theorem spaced_map (f : α → β) : Spaced (items.map (map f)) ↔ Spaced items := by
  have hchar : ∀ c, Item.char c ∈ items.map (map f) ↔ Item.char c ∈ items := by
    intro c
    rw [List.mem_map]
    constructor
    · rintro ⟨x, hx, hxc⟩
      cases x with
      | char c' =>
        cases hxc
        exact hx
      | token a => cases hxc
    · exact fun hc => ⟨_, hc, rfl⟩
  have hchain : (items.map (map f)).IsChain (fun x y => ¬ (x.isSpace = true ∧ y.isSpace = true)) ↔
      items.IsChain fun x y => ¬ (x.isSpace = true ∧ y.isSpace = true) := by
    rw [List.isChain_map]
    simp only [isSpace_map]
  constructor
  · exact fun h => ⟨fun c hc => h.char c ((hchar c).mpr hc), hchain.mp h.apart⟩
  · exact fun h => ⟨fun c hc => h.char c ((hchar c).mp hc), hchain.mpr h.apart⟩

theorem spaced_nil : Spaced ([] : List (Item α)) :=
  ⟨by simp, .nil⟩

/-- A token keeps spaces apart. -/
theorem spaced_token_cons (a : α) : Spaced (.token a :: items) ↔ Spaced items := by
  have hjoin : Apart [Item.token a].getLast? items.head? := by
    rintro _ ⟨⟩ _ _ ⟨h, -⟩
    cases h
  have htoken : Spaced [Item.token a] := ⟨by simp, .singleton _⟩
  rw [← List.singleton_append, spaced_append]
  exact ⟨fun h => h.2.1, fun h => ⟨htoken, h, hjoin⟩⟩

/-- Spaced characters are collapsed characters without quotes. -/
theorem spaced_map_char : Spaced (cs.map (Item.char : Char → Item α)) ↔ Text.Collapsed cs ∧ quoteMark ∉ cs := by
  have hchain : (cs.map (Item.char : Char → Item α)).IsChain (fun x y => ¬ (x.isSpace = true ∧ y.isSpace = true)) ↔
      cs.IsChain fun a b => ¬ (a = ' ' ∧ b = ' ') := by
    rw [List.isChain_map]
    simp only [isSpace, beq_iff_eq]
  constructor
  · intro h
    refine ⟨⟨fun c hc => (h.char c (List.mem_map_of_mem hc)).2, hchain.mp h.apart⟩, fun hquote => ?_⟩
    exact (h.char _ (List.mem_map_of_mem hquote)).1 rfl
  · rintro ⟨hcollapsed, hquote⟩
    refine ⟨fun c hc => ?_, hchain.mpr hcollapsed.apart⟩
    obtain ⟨_, hc, ⟨⟩⟩ := List.mem_map.mp hc
    refine ⟨?_, hcollapsed.blank c hc⟩
    rintro rfl
    exact hquote hc

/-- Collapsing leaves spaced items as they are. -/
theorem collapseFrom_of_spaced (h : Spaced items) {inRun : Bool}
    (hrun : inRun = true → items.head? ≠ some (.char ' ')) : collapseFrom inRun items = items := by
  induction items generalizing inRun with
  | nil => cases inRun <;> rfl
  | cons x items ih =>
    have htail : Spaced items := ⟨fun c hc => h.char c (List.mem_cons_of_mem x hc), h.apart.tail⟩
    rw [collapseFrom]
    cases hx : x.isBlank with
    | false => rw [if_neg Bool.false_ne_true, ih htail fun hfalse => absurd hfalse Bool.false_ne_true]
    | true =>
      cases x with
      | token a => cases hx
      | char c =>
        obtain rfl := (h.char c List.mem_cons_self).2 hx
        cases inRun with
        | true => exact absurd rfl (hrun rfl)
        | false =>
          rw [if_pos rfl, if_neg Bool.false_ne_true, ih htail fun _ hhead => ?_]
          exact (List.isChain_cons.mp h.apart).1 _ hhead ⟨rfl, rfl⟩

end Item

/-! ## Scanning -/

namespace Lexeme

variable {offset : Nat} {cs before content : List Char} {stretches : List (List Char)}

theorem ofStretches_cons_cons (h : stretches ≠ []) : ofStretches offset (before :: content :: stretches) =
    (ofStretches (offset + byteSize before + quoteMark.utf8Size + byteSize content + quoteMark.utf8Size)
      stretches).map fun rest => ofText before ++ literal (.ofList content) :: rest := by
  cases stretches with
  | nil => exact absurd rfl h
  | cons stretch stretches =>
    rw [ofStretches]
    · cases ofStretches _ (stretch :: stretches) <;> rfl
    · exact List.cons_ne_nil stretch stretches

/-- An odd number of stretches ends with text. -/
theorem exists_ofStretches (offset : Nat) : ∀ {stretches : List (List Char)}, stretches.length % 2 = 1 →
    ∃ lexemes, ofStretches offset stretches = .ok lexemes
  | [], h => by simp at h
  | [last], _ => ⟨ofText last, rfl⟩
  | [_, _], h => by simp at h
  | before :: content :: stretch :: stretches, h => by
    obtain ⟨lexemes, hlexemes⟩ := exists_ofStretches
      (offset + byteSize before + quoteMark.utf8Size + byteSize content + quoteMark.utf8Size)
      (show (stretch :: stretches).length % 2 = 1 by simp only [List.length_cons] at h ⊢; omega)
    rw [ofStretches_cons_cons (List.cons_ne_nil _ _), hlexemes]
    exact ⟨_, rfl⟩

theorem length_splitOn (c : Char) (cs : List Char) : (cs.splitOn c).length = cs.count c + 1 := by
  rw [List.splitOn_eq_splitOnP]
  induction cs with
  | nil => rfl
  | cons x cs ih =>
    rw [List.splitOnP_cons_eq_if_modifyHead, List.count_cons]
    split <;> simp [ih]

/-- **A source with an even number of quotes has lexemes.** -/
theorem exists_scan_of_even {source : String} (h : Even (source.toList.count quoteMark)) :
    ∃ lexemes, scan source = .ok lexemes := by
  refine exists_ofStretches 0 ?_
  rw [length_splitOn]
  obtain ⟨n, hn⟩ := h
  omega

end Lexeme

namespace Item

theorem ofLexemes_append (xs ys : List Lexeme) : ofLexemes (xs ++ ys) = ofLexemes xs ++ ofLexemes ys :=
  List.flatMap_append

/-- The items of a stretch of text. -/
theorem ofLexemes_ofText (cs : List Char) :
    ofLexemes (Lexeme.ofText cs) = (Text.collapseFrom false cs).map char := by
  cases cs with
  | nil => rfl
  | cons c cs => simp [Lexeme.ofText, ofLexemes, ofLexeme, Text.collapse]

theorem spaced_text {cs : List Char} (h : quoteMark ∉ cs) :
    Spaced ((Text.collapseFrom false cs).map (char : Char → Item String)) :=
  spaced_map_char.mpr ⟨(Text.collapsed_collapseFrom false cs).1,
    fun hquote => h (Text.mem_of_mem_collapseFrom hquote (by decide))⟩

/-- The items of stretches without quotes. -/
theorem spaced_ofStretches {offset : Nat} : ∀ {stretches : List (List Char)} {lexemes : List Lexeme},
    (∀ cs ∈ stretches, quoteMark ∉ cs) → Lexeme.ofStretches offset stretches = .ok lexemes →
    Spaced (ofLexemes lexemes) ∧ ∀ content ∈ tokens (ofLexemes lexemes), quoteMark ∉ content.toList
  | [], _, _, h => by
    cases h
    exact ⟨spaced_nil, by simp [ofLexemes, tokens]⟩
  | [last], _, hquotes, h => by
    cases h
    rw [ofLexemes_ofText]
    exact ⟨spaced_text (hquotes last List.mem_cons_self), by simp⟩
  | [_, _], _, _, h => by cases h
  | before :: content :: stretch :: stretches, _, hquotes, h => by
    rw [Lexeme.ofStretches_cons_cons (List.cons_ne_nil _ _)] at h
    obtain ⟨hbefore, hquotes⟩ := List.forall_mem_cons.mp hquotes
    obtain ⟨hcontent, hquotes⟩ := List.forall_mem_cons.mp hquotes
    cases hrest : Lexeme.ofStretches (offset + Lexeme.byteSize before + quoteMark.utf8Size +
        Lexeme.byteSize content + quoteMark.utf8Size) (stretch :: stretches) with
    | error e =>
      rw [hrest] at h
      cases h
    | ok rest =>
      rw [hrest] at h
      cases h
      obtain ⟨hspaced, hliterals⟩ := spaced_ofStretches hquotes hrest
      have hitems : ofLexemes (Lexeme.ofText before ++ .literal (.ofList content) :: rest) =
          (Text.collapseFrom false before).map char ++ .token (.ofList content) :: ofLexemes rest := by
        rw [ofLexemes_append, ofLexemes_ofText]
        rfl
      rw [hitems]
      refine ⟨spaced_append.mpr ⟨spaced_text hbefore, (spaced_token_cons _).mpr hspaced, ?_⟩, ?_⟩
      · rintro _ _ _ ⟨⟩ ⟨-, h⟩
        cases h
      · rw [tokens_append, tokens_map_char, List.nil_append, tokens_cons_token]
        exact List.forall_mem_cons.mpr ⟨by rwa [String.toList_ofList], hliterals⟩

/-- **The items of a source are spaced**, and no literal has a quote in it. -/
theorem spaced_ofLexemes {source : String} {lexemes : List Lexeme} (h : Lexeme.scan source = .ok lexemes) :
    Spaced (ofLexemes lexemes) ∧ ∀ content ∈ tokens (ofLexemes lexemes), quoteMark ∉ content.toList := by
  refine spaced_ofStretches (fun cs hcs hquote => ?_) h
  rw [List.splitOn_eq_splitOnP] at hcs
  have := eq_false_of_mem_splitOnP hcs _ hquote
  simp at this

/-! ## Items that are spelled out -/

/-- The characters of an item, a literal between quotes. -/
def spell : Item String → List Char
  | char c => [c]
  | token content => quoteMark :: content.toList ++ [quoteMark]

theorem flatMap_spell_map_char (cs : List Char) : (cs.map char).flatMap spell = cs := by
  induction cs with
  | nil => rfl
  | cons c cs ih => rw [List.map_cons, List.flatMap_cons, ih, spell, List.singleton_append]

/-- Items that start with text and a literal. -/
theorem splitOn_spell {cs : List Char} {content : String} {items : List (Item String)} (hcs : quoteMark ∉ cs)
    (hcontent : quoteMark ∉ content.toList) :
    ((cs.map char ++ token content :: items).flatMap spell).splitOn quoteMark =
      cs :: content.toList :: (items.flatMap spell).splitOn quoteMark := by
  have hne : ∀ {xs : List Char}, quoteMark ∉ xs → ∀ x ∈ xs, (x == quoteMark) = false := by
    intro xs hxs x hx
    rw [beq_eq_false_iff_ne]
    rintro rfl
    exact hxs hx
  have hspell : (cs.map char ++ token content :: items).flatMap spell =
      cs ++ quoteMark :: (content.toList ++ quoteMark :: items.flatMap spell) := by
    rw [List.flatMap_append, flatMap_spell_map_char, List.flatMap_cons, spell]
    simp
  rw [hspell, List.splitOn_eq_splitOnP, List.splitOnP_append_cons_of_forall_mem (hne hcs) _ (by simp),
    List.splitOnP_append_cons_of_forall_mem (hne hcontent) _ (by simp), List.splitOn_eq_splitOnP]

/-- Items without tokens are characters. -/
theorem exists_chars {α : Type} {items : List (Item α)} (h : ∀ x ∈ items, x.token?.isSome = false) :
    ∃ cs : List Char, items = cs.map char := by
  induction items with
  | nil => exact ⟨[], rfl⟩
  | cons x items ih =>
    obtain ⟨hx, h⟩ := List.forall_mem_cons.mp h
    obtain ⟨cs, rfl⟩ := ih h
    cases x with
    | char c => exact ⟨c :: cs, rfl⟩
    | token a => cases hx

/-- No quote stands among the items, or in a literal. -/
def Unquoted (items : List (Item String)) : Prop :=
  char quoteMark ∉ items ∧ ∀ content ∈ tokens items, quoteMark ∉ content.toList

theorem collapseFrom_map_char {α : Type} (inRun : Bool) (cs : List Char) :
    collapseFrom inRun (cs.map (char : Char → Item α)) = (Text.collapseFrom inRun cs).map char := by
  induction cs generalizing inRun with
  | nil => rfl
  | cons c cs ih =>
    simp only [List.map_cons, collapseFrom, Text.collapseFrom, isBlank, ih]
    cases Text.isBlank c <;> cases inRun <;> rfl

/-- **Items that are spelled out are scanned to the collapsed items**, if there are no quotes in them. -/
theorem exists_scan_spell_unquoted {items : List (Item String)} (h : Unquoted items) :
    ∃ lexemes, Lexeme.scan (.ofList (items.flatMap spell)) = .ok lexemes ∧
      ofLexemes lexemes = collapseFrom false items := by
  suffices hstretches : ∀ offset, ∃ lexemes,
      Lexeme.ofStretches offset ((items.flatMap spell).splitOn quoteMark) = .ok lexemes ∧
        ofLexemes lexemes = collapseFrom false items by
    rw [Lexeme.scan, String.toList_ofList]
    exact hstretches 0
  obtain ⟨hchars, hliterals⟩ := h
  -- The text up to the first literal is one stretch.
  induction items using splitOnP_induction (p := fun x : Item String => x.token?.isSome) with
  | one piece hpiece =>
    intro offset
    obtain ⟨cs, rfl⟩ := exists_chars hpiece
    rw [flatMap_spell_map_char, List.splitOn_eq_splitOnP, List.splitOnP_eq_singleton]
    · exact ⟨Lexeme.ofText cs, rfl, by rw [ofLexemes_ofText, collapseFrom_map_char]⟩
    · intro x hx
      rw [beq_eq_false_iff_ne]
      rintro rfl
      exact hchars (List.mem_map_of_mem hx)
  | cons piece x rest hpiece hx ih =>
    intro offset
    obtain ⟨cs, rfl⟩ := exists_chars hpiece
    cases x with
    | char c => cases hx
    | token content =>
      rw [tokens_append, tokens_map_char, List.nil_append, tokens_cons_token] at hliterals
      obtain ⟨hcontent, hliterals⟩ := List.forall_mem_cons.mp hliterals
      have hquote : quoteMark ∉ cs := fun hmem => hchars (List.mem_append_left _ (List.mem_map_of_mem hmem))
      have hrest : char quoteMark ∉ rest := fun hmem =>
        hchars (List.mem_append_right _ (List.mem_cons_of_mem _ hmem))
      have hne : (rest.flatMap spell).splitOn quoteMark ≠ [] := by
        rw [List.splitOn_eq_splitOnP]
        exact List.splitOnP_ne_nil _ _
      obtain ⟨lexemes, hlexemes, hitems⟩ := ih hrest hliterals
        (offset + Lexeme.byteSize cs + quoteMark.utf8Size + Lexeme.byteSize content.toList + quoteMark.utf8Size)
      rw [splitOn_spell hquote hcontent, Lexeme.ofStretches_cons_cons hne, hlexemes]
      refine ⟨_, rfl, ?_⟩
      rw [ofLexemes_append, ofLexemes_ofText, collapseFrom_append_cons rfl, collapseFrom_map_char, ← hitems,
        String.ofList_toList]
      rfl

/-- **Spaced items that are spelled out are scanned to themselves**, if no literal has a quote in it. -/
theorem exists_scan_spell {items : List (Item String)} (h : Spaced items)
    (hliterals : ∀ content ∈ tokens items, quoteMark ∉ content.toList) :
    ∃ lexemes, Lexeme.scan (.ofList (items.flatMap spell)) = .ok lexemes ∧ ofLexemes lexemes = items := by
  have hquote : char quoteMark ∉ items := fun hmem => (h.char quoteMark hmem).1 rfl
  obtain ⟨lexemes, hscan, hitems⟩ := exists_scan_spell_unquoted ⟨hquote, hliterals⟩
  rw [collapseFrom_of_spaced h fun hfalse => absurd hfalse Bool.false_ne_true] at hitems
  exact ⟨lexemes, hscan, hitems⟩

end Item

end CallExpr

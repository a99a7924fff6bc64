import CallExpr.Proofs.LinearForest
import CallExpr.Proofs.Recognition

/-!
# Forests that are written and read back

* `Term.items`: the items of a term as it is written, with a space after each delimiter.
* `Forest.write_eq`: the text of a forest spells the items of its terms.
* `Term.spaced_rootItems`: these items are spaced, so scanning the text gives them back.
* `Term.not_quote_rootItems`: their literals have no quote in them.
-/

namespace CallExpr

open Grammar

namespace Term

mutual

/-- The items of a term as it is written. -/
def items (d : Char) : Term → List (Item String)
  | literal content => [.token content]
  | .variable name => name.toList.map .char
  | call name arguments => name.toList.map .char ++ .char '(' :: itemsAll d arguments ++ [.char ')']
  | missing t => t.write.toList.map .char

/-- The items of arguments, with a delimiter and a space between them. -/
def itemsAll (d : Char) : List Term → List (Item String)
  | [] => []
  | [t] => items d t
  | t :: u :: ts => items d t ++ .char d :: .char ' ' :: itemsAll d (u :: ts)

end

/-- The items of terms at the top level, with a space between them. -/
def rootItems (d : Char) : List Term → List (Item String)
  | [] => []
  | [t] => items d t
  | t :: u :: ts => items d t ++ .char ' ' :: rootItems d (u :: ts)

/-! ## The text of a forest -/

/-- The text of a term. -/
def text (d : Char) (t : Term) : List Char :=
  (items d t).flatMap Item.spell

variable {d : Char}

theorem flatMap_spell_itemsAll (ts : List Term) :
    (itemsAll d ts).flatMap Item.spell = [d, ' '].intercalate (ts.map (text d)) := by
  induction ts with
  | nil => rfl
  | cons t ts ih =>
    cases ts with
    | nil => rw [itemsAll, List.map_singleton, List.intercalate_singleton, text]
    | cons u ts =>
      rw [itemsAll, List.flatMap_append, List.flatMap_cons, List.flatMap_cons, ih]
      simp [Item.spell, text]

theorem flatMap_spell_rootItems (ts : List Term) :
    (rootItems d ts).flatMap Item.spell = [' '].intercalate (ts.map (text d)) := by
  induction ts with
  | nil => rfl
  | cons t ts ih =>
    cases ts with
    | nil => rw [rootItems, List.map_singleton, List.intercalate_singleton, text]
    | cons u ts =>
      rw [rootItems, List.flatMap_append, List.flatMap_cons, ih]
      simp [Item.spell, text]

theorem text_call (name : String) (ts : List Term) :
    text d (.call name ts) = name.toList ++ '(' :: [d, ' '].intercalate (ts.map (text d)) ++ [')'] := by
  rw [text, items, List.flatMap_append, List.flatMap_append, Item.flatMap_spell_map_char, List.flatMap_cons,
    flatMap_spell_itemsAll]
  rfl

end Term

/-- In an ordered store a token is written as its term. -/
theorem Store.Ordered.toList_writeWithin {s : Store} (hs : s.Ordered) (d : Char) {depth : Nat} {t : Token}
    (ht : t.index < s.size) (hdepth : t.index < depth) :
    (s.writeWithin d depth t).toList = (s.termAt t).text d := by
  induction depth generalizing t with
  | zero => exact absurd hdepth (Nat.not_lt_zero _)
  | succ depth ih =>
    obtain ⟨e, he⟩ := Option.isSome_iff_exists.mp (isSome_get?_iff.mpr ht)
    rw [hs.termAt_eq he, writeWithin, he]
    cases e with
    | literal content => simp [Entry.term, Term.text, Term.items, Item.spell, quoteMark]
    | «variable» name => rw [Entry.term, Term.text, Term.items, Item.flatMap_spell_map_char]
    | call name arguments =>
      have harguments : (arguments.map (s.writeWithin d depth)).map String.toList =
          (arguments.map s.termAt).map (Term.text d) := by
        rw [List.map_map, List.map_map]
        refine List.map_congr_left fun u hu => ?_
        have hlt := hs t _ he u hu
        exact ih (Nat.lt_trans hlt ht) (by omega)
      rw [Entry.term, Term.text_call]
      simp only [String.toList_append, String.toList_intercalate, harguments, String.toList_ofList]
      simp

/-- **The text of a forest spells the items of its terms.** -/
theorem Forest.write_eq {f : Forest} (hs : f.store.Ordered) (hroots : ∀ u ∈ f.roots, u.index < f.store.size)
    (d : Char) : f.write d = .ofList ((Term.rootItems d (f.roots.map f.store.termAt)).flatMap Item.spell) := by
  have htexts : (f.roots.map (f.store.write d)).map String.toList =
      (f.roots.map f.store.termAt).map (Term.text d) := by
    rw [List.map_map, List.map_map]
    refine List.map_congr_left fun u hu => ?_
    exact hs.toList_writeWithin d (hroots u hu) (Nat.lt_succ_of_lt (hroots u hu))
  rw [← String.toList_inj, write, String.toList_intercalate, htexts, Term.flatMap_spell_rootItems]
  simp

/-! ## Written items are spaced -/

/-- A name character is no quote and not blank. -/
theorem not_blank_of_isNameChar {c : Char} (h : isNameChar c = true) : c ≠ quoteMark ∧ Text.isBlank c = false := by
  have hupper : c.isUpper = true → 65 ≤ c.toNat ∧ c.toNat ≤ 90 := by
    intro h
    exact of_decide_eq_true h
  have hlower : c.isLower = true → 97 ≤ c.toNat ∧ c.toNat ≤ 122 := by
    intro h
    obtain ⟨h₁, h₂⟩ := Bool.and_eq_true_iff.mp (show (decide (97 ≤ c.val) && decide (c.val ≤ 122)) = true from h)
    exact ⟨of_decide_eq_true h₁, of_decide_eq_true h₂⟩
  have hdigit : c.isDigit = true → 48 ≤ c.toNat ∧ c.toNat ≤ 57 := Char.isDigit_iff_toNat.mp
  have hbounds : 48 ≤ c.toNat ∧ c.toNat ≤ 122 := by
    have hcases : (((c.isUpper || c.isLower) || c.isDigit) || c == '_') = true := h
    simp only [Bool.or_eq_true, beq_iff_eq] at hcases
    rcases hcases with ((h | h) | h) | rfl
    · have := hupper h
      omega
    · have := hlower h
      omega
    · have := hdigit h
      omega
    · decide
  refine ⟨fun hquote => ?_, ?_⟩
  · rw [hquote] at hbounds
    revert hbounds
    decide
  · simp only [Text.isBlank, Text.inRanges, Text.blankRanges, List.any_cons, List.any_nil, Bool.or_false,
      Bool.or_eq_false_iff, Bool.and_eq_false_iff, decide_eq_false_iff_not]
    omega

namespace Item

variable {α : Type} {xs ys : List (Item α)}

theorem Spaced.append_of_left (hx : Spaced xs) (hy : Spaced ys) (h : ∀ x ∈ xs.getLast?, x.isSpace = false) :
    Spaced (xs ++ ys) := by
  refine spaced_append.mpr ⟨hx, hy, fun a ha b _ hspace => ?_⟩
  rw [h a ha] at hspace
  exact Bool.false_ne_true hspace.1

theorem Spaced.append_of_right (hx : Spaced xs) (hy : Spaced ys) (h : ∀ y ∈ ys.head?, y.isSpace = false) :
    Spaced (xs ++ ys) := by
  refine spaced_append.mpr ⟨hx, hy, fun a _ b hb hspace => ?_⟩
  rw [h b hb] at hspace
  exact Bool.false_ne_true hspace.2

/-- A character that is no quote and not blank. -/
theorem spaced_char {c : Char} (h : c ≠ quoteMark ∧ Text.isBlank c = false) : Spaced ([.char c] : List (Item α)) := by
  refine ⟨fun c' hc' => ?_, .singleton _⟩
  obtain rfl : c' = c := by simpa using hc'
  refine ⟨h.1, fun hblank => ?_⟩
  rw [h.2] at hblank
  cases hblank

theorem spaced_of_not_blank {cs : List Char} (h : ∀ c ∈ cs, c ≠ quoteMark ∧ Text.isBlank c = false) :
    Spaced (cs.map (Item.char : Char → Item α)) := by
  induction cs with
  | nil => exact spaced_nil
  | cons c cs ih =>
    obtain ⟨hc, hcs⟩ := List.forall_mem_cons.mp h
    refine (spaced_char hc).append_of_left (ih hcs) fun x hx => ?_
    obtain rfl : Item.char c = x := by simpa using hx
    rw [isSpace, beq_eq_false_iff_ne]
    rintro rfl
    exact absurd hc.2 (by decide)

theorem spaced_space : Spaced ([.char ' '] : List (Item α)) :=
  ⟨fun c hc => by simp_all [quoteMark], .singleton _⟩

end Item

namespace Term

variable {d : Char} {t : Term} {ts : List Term}

theorem trimmed_items : ∀ {t : Term}, t.Writable d → Item.Trimmed (t.items d)
  | literal _, _ => by simp [items, Item.Trimmed, Item.isSpace]
  | missing _, h => h.elim
  | .variable _, h => (isPhrase_iff.mp h.1).2
  | call name arguments, h => by
    obtain ⟨⟨c, rest, hname, hc, -⟩, -⟩ := h
    have hspace : c ≠ ' ' := by
      rintro rfl
      exact absurd hc (by decide)
    constructor
    · simpa [items, hname, Item.isSpace] using hspace
    · intro x hx
      rw [items, List.getLast?_concat] at hx
      cases hx
      rfl

/-- The items of arguments do not start with a space. -/
theorem head?_itemsAll (hd : Dialect.isUsable d = true) (h : WritableAll d ts) :
    ∀ x ∈ (itemsAll d ts).head?, x.isSpace = false := by
  cases ts with
  | nil => simp [itemsAll]
  | cons t ts =>
    cases ts with
    | nil => exact (trimmed_items h.1).1
    | cons u ts =>
      intro x hx
      rw [itemsAll, List.head?_append] at hx
      rcases Option.or_eq_some_iff.mp hx with hx | ⟨-, hx⟩
      · exact (trimmed_items h.1).1 x hx
      · obtain rfl := Option.some.inj hx
        simpa [Item.isSpace] using Dialect.ne_space_of_isUsable hd

mutual

/-- The items of a written term are spaced. -/
theorem spaced_items (hd : Dialect.isUsable d = true) : ∀ {t : Term}, t.Writable d → Item.Spaced (t.items d)
  | literal content, _ => (Item.spaced_token_cons content).mpr Item.spaced_nil
  | missing _, h => h.elim
  | .variable _, h => Item.spaced_map_char.mpr h.2
  | call name arguments, h => by
    obtain ⟨hname, -, harguments⟩ := h
    have hnameItems : Item.Spaced (name.toList.map (Item.char : Char → Item String)) :=
      Item.spaced_of_not_blank fun c hc => not_blank_of_isNameChar (hname.isNameChar c hc)
    have hgroup : Item.Spaced (.char '(' :: itemsAll d arguments) :=
      (Item.spaced_char (by decide)).append_of_left (spaced_itemsAll hd harguments) (by simp [Item.isSpace])
    exact (hnameItems.append_of_right hgroup (by simp [Item.isSpace])).append_of_right
      (Item.spaced_char (by decide)) (by simp [Item.isSpace])

theorem spaced_itemsAll (hd : Dialect.isUsable d = true) :
    ∀ {ts : List Term}, WritableAll d ts → Item.Spaced (itemsAll d ts)
  | [], _ => Item.spaced_nil
  | [_], h => spaced_items hd h.1
  | t :: u :: ts, h => by
    have hspace := Dialect.ne_space_of_isUsable hd
    obtain ⟨hblank, -, hquote⟩ := Dialect.isUsable_iff.mp hd
    have hfirst : Item.Spaced (items d t ++ [.char d]) :=
      (spaced_items hd h.1).append_of_right (Item.spaced_char ⟨hquote, hblank⟩) (by simpa [Item.isSpace] using hspace)
    have hrest : Item.Spaced (.char ' ' :: itemsAll d (u :: ts)) :=
      Item.spaced_space.append_of_right (spaced_itemsAll hd h.2) (head?_itemsAll hd h.2)
    have hall := hfirst.append_of_left hrest (by simpa [Item.isSpace] using hspace)
    rwa [List.append_assoc] at hall

end

/-- The items of a term at the top level are not empty. -/
theorem items_ne_nil (h : t.Writable d) (hroot : t.IsRoot d) : items d t ≠ [] := by
  cases t with
  | literal content => simp [items]
  | missing t => exact h.elim
  | «variable» name => simpa [items] using hroot.2.1
  | call name arguments => simp [items]

theorem head?_rootItems (h : ∀ t ∈ ts, t.Writable d ∧ t.IsRoot d) :
    ∀ x ∈ (rootItems d ts).head?, x.isSpace = false := by
  cases ts with
  | nil => simp [rootItems]
  | cons t ts =>
    obtain ⟨⟨ht, hroot⟩, -⟩ := List.forall_mem_cons.mp h
    cases ts with
    | nil => exact (trimmed_items ht).1
    | cons u ts =>
      rw [rootItems, List.head?_append_of_ne_nil _ (items_ne_nil ht hroot)]
      exact (trimmed_items ht).1

theorem spaced_rootItems (hd : Dialect.isUsable d = true) (h : ∀ t ∈ ts, t.Writable d ∧ t.IsRoot d) :
    Item.Spaced (rootItems d ts) := by
  induction ts with
  | nil => exact Item.spaced_nil
  | cons t ts ih =>
    obtain ⟨⟨ht, -⟩, hts⟩ := List.forall_mem_cons.mp h
    cases ts with
    | nil => exact spaced_items hd ht
    | cons u ts =>
      have hrest : Item.Spaced (.char ' ' :: rootItems d (u :: ts)) :=
        Item.spaced_space.append_of_right (ih hts) (head?_rootItems hts)
      exact (spaced_items hd ht).append_of_left hrest (trimmed_items ht).2

/-! ## Literals -/

mutual

theorem not_quote_items : ∀ {t : Term}, t.Writable d → ∀ content ∈ Item.tokens (t.items d), quoteMark ∉ content.toList
  | literal _, h => by
    rintro content hcontent
    rw [List.mem_singleton.mp hcontent]
    exact h
  | missing _, h => h.elim
  | .variable _, _ => by simp [items]
  | call _ _, h => by simpa [items] using not_quote_itemsAll h.2.2

theorem not_quote_itemsAll : ∀ {ts : List Term}, WritableAll d ts →
    ∀ content ∈ Item.tokens (itemsAll d ts), quoteMark ∉ content.toList
  | [], _ => by simp [itemsAll]
  | [_], h => not_quote_items h.1
  | _ :: _ :: _, h => by
    simp only [itemsAll, Item.tokens_append, Item.tokens_cons_char, List.mem_append]
    rintro content (hcontent | hcontent)
    · exact not_quote_items h.1 content hcontent
    · exact not_quote_itemsAll h.2 content hcontent

end

theorem not_quote_rootItems (h : ∀ t ∈ ts, t.Writable d) :
    ∀ content ∈ Item.tokens (rootItems d ts), quoteMark ∉ content.toList := by
  induction ts with
  | nil => simp [rootItems]
  | cons t ts ih =>
    obtain ⟨ht, hts⟩ := List.forall_mem_cons.mp h
    cases ts with
    | nil => exact not_quote_items ht
    | cons u ts =>
      simp only [rootItems, Item.tokens_append, Item.tokens_cons_char, List.mem_append]
      rintro content (hcontent | hcontent)
      · exact not_quote_items ht content hcontent
      · exact ih hts content hcontent

end Term

end CallExpr

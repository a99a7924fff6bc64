import CallExpr.Proofs.Writing

/-!
# Writing and reading back

* `Term.readsForest_rootItems`: the items of written terms are read to the terms, also if the delimiter can stand in a
  name.
* `Dialect.read_spell`: so the text of terms that can be written is read to the forest that numbers them.
* `Forest.Writable`: what the entries of a forest are like so that it can be written.
* `Dialect.read_write`: a forest that was read is written to a text that is read to the same forest.
* `Dialect.read_write_unfolds`: a forest that can be written is written to a text that is read to a forest of the same
  terms.
-/

namespace CallExpr

open Grammar

theorem literalItems_append (xs ys : List (Item String)) :
    literalItems (xs ++ ys) = literalItems xs ++ literalItems ys :=
  List.map_append

theorem literalItems_map_char (cs : List Char) : literalItems (cs.map .char) = cs.map .char := by
  simp [literalItems, Item.map]

theorem literalItems_cons_char (c : Char) (items : List (Item String)) :
    literalItems (.char c :: items) = .char c :: literalItems items := rfl

namespace Term

variable {d : Char} {t : Term} {ts : List Term}

/-! ## Reading -/

/-- The items of an argument are not all spaces, if it is no empty variable. -/
theorem exists_items_not_space (h : t.Writable d) (hempty : t ≠ .variable "") :
    ∃ x ∈ t.items d, x.isSpace = false := by
  have hne : t.items d ≠ [] := by
    cases t with
    | literal content => simp [items]
    | missing t => exact h.elim
    | call name arguments => simp [items]
    | «variable» name =>
      intro hnil
      have hname : name = "" := by simpa [items] using hnil
      exact hempty (by rw [hname])
  obtain ⟨x, rest, hx⟩ := List.exists_cons_of_ne_nil hne
  exact ⟨x, by rw [hx]; exact List.mem_cons_self, (trimmed_items h).1 x (by rw [hx]; rfl)⟩

theorem exists_itemsAll_not_space (hd : Dialect.isUsable d = true) (h : WritableAll d ts) (hne : ts ≠ [])
    (hempty : ts ≠ [.variable ""]) : ∃ x ∈ itemsAll d ts, x.isSpace = false := by
  match ts, h with
  | [], _ => exact absurd rfl hne
  | [t], h => exact exists_items_not_space h.1 fun ht => hempty (by rw [ht])
  | t :: u :: ts, _ =>
    have hspace := Dialect.ne_space_of_isUsable hd
    exact ⟨.char d, by simp [itemsAll], by simpa [Item.isSpace] using hspace⟩

/-- A written argument is read as a phrase, if it is no literal or call. -/
theorem reads_items (hd : Dialect.isUsable d = true) (h : t.Writable d)
    (hflat : (∀ name, t ≠ .variable name) → Flattens d (literalItems (t.items d)) [.token t]) :
    ReadsArgument d (literalItems (t.items d)) t := by
  by_cases hvariable : ∃ name, t = .variable name
  · obtain ⟨name, rfl⟩ := hvariable
    have hphrase := ReadsArgument.phrase hd 0 0 h.1
    rw [items, literalItems_map_char]
    simpa [spaces, String.ofList_toList] using hphrase
  · have htoken := ReadsArgument.token hd 0 0 (hflat fun name hname => hvariable ⟨name, hname⟩)
    simpa [spaces] using htoken

mutual

/-- A literal or a call is read to one token. -/
theorem flattens_items (hd : Dialect.isUsable d = true) : ∀ {t : Term}, t.Writable d → (∀ name, t ≠ .variable name) →
    Flattens d (literalItems (t.items d)) [.token t]
  | literal content, _, _ => by
    have htoken : Flattens d [.token (.literal content)] [.token (.literal content)] :=
      flattens_of_not_paren (by simp [Item.isParen_token])
    exact htoken
  | missing _, h, _ => h.elim
  | .variable name, _, hvariable => absurd rfl (hvariable name)
  | call name arguments, h, _ => by
    obtain ⟨hname, hempty, harguments⟩ := h
    have hbody : ReadsBody d (literalItems (itemsAll d arguments)) arguments := by
      by_cases hne : arguments = []
      · rw [hne]
        exact .empty d 0
      · obtain ⟨x, hx, hspace⟩ := exists_itemsAll_not_space hd harguments hne hempty
        exact .arguments (reads_itemsAll hd hne harguments)
          ⟨x.map .literal, List.mem_map_of_mem hx, by rw [Item.isSpace_map, hspace]⟩
    have hcall := flattens_call hname hbody
    rw [String.ofList_toList] at hcall
    rw [items, literalItems_append, literalItems_append, literalItems_map_char]
    exact hcall

theorem reads_itemsAll (hd : Dialect.isUsable d = true) :
    ∀ {ts : List Term}, ts ≠ [] → WritableAll d ts → ReadsArguments d (literalItems (itemsAll d ts)) ts
  | [], hne, _ => absurd rfl hne
  | [_], _, h => .one (reads_items hd h.1 (flattens_items hd h.1))
  | t :: u :: ts, _, h => by
    rw [itemsAll, literalItems_append]
    exact .cons hd 1 (Or.inl Nat.one_ne_zero) (reads_items hd h.1 (flattens_items hd h.1))
      (reads_itemsAll hd (List.cons_ne_nil u ts) h.2)

end

/-- A term at the top level is read by itself. -/
theorem readsTop_items (hd : Dialect.isUsable d = true) (h : t.Writable d) (hroot : t.IsRoot d) :
    ReadsTop d (literalItems (t.items d)) t := by
  by_cases hvariable : ∃ name, t = .variable name
  · obtain ⟨name, rfl⟩ := hvariable
    have hword := ReadsTop.word hroot
    rw [String.ofList_toList] at hword
    rwa [items, literalItems_map_char]
  · exact .token (flattens_items hd h fun name hname => hvariable ⟨name, hname⟩)

theorem readsForest_rootItems (hd : Dialect.isUsable d = true) (h : ∀ t ∈ ts, t.Writable d ∧ t.IsRoot d) :
    ReadsForest d (literalItems (rootItems d ts)) ts := by
  induction ts with
  | nil => exact .nil d
  | cons t ts ih =>
    obtain ⟨⟨ht, hroot⟩, hts⟩ := List.forall_mem_cons.mp h
    cases ts with
    | nil => exact .last (readsTop_items hd ht hroot)
    | cons u ts =>
      have hcons := ReadsForest.cons 0 (readsTop_items hd ht hroot) (ih hts)
      rw [rootItems, literalItems_append, literalItems_cons_char]
      simpa [spaces] using hcons

end Term

/-! ## Sources -/

/-- **The text of terms is read to the forest that numbers them.** -/
theorem Dialect.read_spell {d : Dialect} {terms : List Term} (hd : isUsable d.delimiter = true)
    (h : ∀ t ∈ terms, t.Writable d.delimiter ∧ t.IsRoot d.delimiter) (hheights : Term.heights terms < d.maxDepth) :
    (d.read (.ofList ((Term.rootItems d.delimiter terms).flatMap Item.spell))).result = .ok (.ofTerms terms) := by
  obtain ⟨lexemes, hscan, hitems⟩ := Item.exists_scan_spell (Term.spaced_rootItems hd h)
    (Term.not_quote_rootItems fun t ht => (h t ht).1)
  refine read_eq_ok_iff.mpr ⟨hd, lexemes, terms, hscan, ?_, hheights, rfl⟩
  rw [hitems]
  exact (Term.readsForest_rootItems hd h).readTerms

/-! ## Forests that can be written -/

/-- The forest has no cycles, and its names and literals can be written. -/
structure Forest.Writable (d : Char) (f : Forest) : Prop where
  ordered : f.store.Ordered
  stored : ∀ u ∈ f.roots, u.index < f.store.size
  literals : ∀ t content, f.store.get? t = some (.literal content) → quoteMark ∉ content.toList
  phrases : ∀ t name, f.store.get? t = some (.variable name) →
    IsPhrase d name.toList ∧ Text.Collapsed name.toList ∧ quoteMark ∉ name.toList
  names : ∀ t name arguments, f.store.get? t = some (.call name arguments) → IsName name.toList
  /-- A call whose only argument is empty would be read as a call without arguments. -/
  arguments : ∀ t name u, f.store.get? t = some (.call name [u]) → f.store.get? u ≠ some (.variable "")
  words : ∀ u ∈ f.roots, ∀ name, f.store.get? u = some (.variable name) → name.toList ≠ [] ∧ ' ' ∉ name.toList

section Forests

variable {d : Char} {f : Forest} {s : Store} {t u : Token}

namespace Forest

theorem Writable.termAt (h : f.Writable d) (hu : u.index < f.store.size) : (f.store.termAt u).Writable d := by
  induction hn : u.index using Nat.strongRecOn generalizing u with
  | ind n ih =>
    obtain ⟨e, he⟩ := Option.isSome_iff_exists.mp (Store.isSome_get?_iff.mpr hu)
    rw [h.ordered.termAt_eq he]
    cases e with
    | literal content => exact h.literals u content he
    | «variable» name => exact h.phrases u name he
    | call name arguments =>
      have hlt : ∀ v ∈ arguments, v.index < u.index := h.ordered u _ he
      refine ⟨h.names u name arguments he, fun hempty => ?_, Term.writableAll_iff.mpr fun t ht => ?_⟩
      · obtain ⟨v, rfl, hv⟩ := List.map_eq_singleton_iff.mp hempty
        have hv' := Nat.lt_trans (hlt v List.mem_cons_self) hu
        obtain ⟨e', he'⟩ := Option.isSome_iff_exists.mp (Store.isSome_get?_iff.mpr hv')
        rw [h.ordered.termAt_eq he'] at hv
        cases e' with
        | literal content => cases hv
        | call name arguments => cases hv
        | «variable» name' =>
          obtain rfl := Term.variable.inj hv
          exact h.arguments u name v he he'
      · obtain ⟨v, hv, rfl⟩ := List.mem_map.mp ht
        exact ih v.index (hn ▸ hlt v hv) (Nat.lt_trans (hlt v hv) hu) rfl

theorem Writable.isRoot (h : f.Writable d) (hu : u ∈ f.roots) : (f.store.termAt u).IsRoot d := by
  obtain ⟨e, he⟩ := Option.isSome_iff_exists.mp (Store.isSome_get?_iff.mpr (h.stored u hu))
  rw [h.ordered.termAt_eq he]
  cases e with
  | literal content => trivial
  | call name arguments => trivial
  | «variable» name => exact ⟨(h.phrases u name he).1.1, h.words u hu name he⟩

/-- The delimiter matters for the variables only. -/
theorem Writable.of_variables {d' : Char} (h : f.Writable d)
    (hvariables : ∀ t name, f.store.get? t = some (.variable name) → d' ∉ name.toList) : f.Writable d' where
  ordered := h.ordered
  stored := h.stored
  literals := h.literals
  phrases := by
    intro t name hname
    obtain ⟨⟨hplain, hends⟩, hspaces⟩ := h.phrases t name hname
    refine ⟨⟨fun c hc => ?_, hends⟩, hspaces⟩
    refine Argument.isStructural_eq_false_iff.mpr ⟨(Argument.isStructural_eq_false_iff.mp (hplain c hc)).1, ?_⟩
    rintro rfl
    exact hvariables t name hname hc
  names := h.names
  arguments := h.arguments
  words := h.words

end Forest

/-- The arguments of a term that can be written can be written. -/
theorem Store.Ordered.writable_of_refers (hs : s.Ordered) (h : (s.termAt t).Writable d) (hu : s.Refers t u) :
    (s.termAt u).Writable d := by
  obtain ⟨e, he, hu⟩ := hu
  rw [hs.termAt_eq he] at h
  cases e with
  | literal content => cases hu
  | «variable» name => cases hu
  | call name arguments => exact Term.writableAll_iff.mp h.2.2 _ (List.mem_map_of_mem hu)

/-- A linear forest can be written if its terms can. -/
theorem Forest.Linear.writable (h : f.Linear)
    (hroots : ∀ u ∈ f.roots, (f.store.termAt u).Writable d ∧ (f.store.termAt u).IsRoot d) : f.Writable d := by
  have hall : ∀ u e, f.store.get? u = some e → (e.term f.store.termAt).Writable d := by
    intro u e he
    obtain ⟨root, hroot, hpath⟩ := h.reachable (Store.lt_size_of_get? he)
    rw [← h.ordered.termAt_eq he]
    clear he
    induction hpath with
    | refl => exact (hroots root hroot).1
    | tail _ hstep ih => exact h.ordered.writable_of_refers ih hstep
  refine ⟨h.ordered, fun u hu => h.stored u (List.mem_append_left _ hu), fun t content ht => hall t _ ht,
    fun t name ht => hall t _ ht, fun t name arguments ht => (hall t _ ht).1, ?_, ?_⟩
  · intro t name u ht hu
    have hempty := (hall t _ ht).2.1
    rw [List.map_singleton, h.ordered.termAt_eq hu] at hempty
    exact hempty rfl
  · intro u hu name hname
    have hroot := (hroots u hu).2
    rw [h.ordered.termAt_eq hname] at hroot
    exact hroot.2

end Forests

namespace Dialect

variable {d : Dialect} {source : String} {f : Forest}

/-- The text of a forest is read to the numbering of its terms. -/
theorem read_write_eq (hd : isUsable d.delimiter = true) (h : f.Writable d.delimiter)
    (hheights : Term.heights (f.roots.map f.store.termAt) < d.maxDepth) :
    (d.read (f.write d.delimiter)).result = .ok (.ofTerms (f.roots.map f.store.termAt)) := by
  rw [Forest.write_eq h.ordered h.stored]
  refine read_spell hd (fun t ht => ?_) hheights
  obtain ⟨u, hu, rfl⟩ := List.mem_map.mp ht
  exact ⟨h.termAt (h.stored u hu), h.isRoot hu⟩

/-- **A forest that was read is written to a text that is read to the same forest**, with a comma as the delimiter, if
no variable has a comma in it. -/
theorem read_write (h : (d.read source).result = .ok f)
    (hcomma : d.delimiter = ',' ∨ ∀ t name, f.store.get? t = some (.variable name) → ',' ∉ name.toList) :
    (Dialect.read ⟨d.maxDepth, ','⟩ f.write).result = .ok f := by
  obtain ⟨-, lexemes, terms, hscan, hterms, hheights, hf⟩ := read_eq_ok_iff.mp h
  have htokens := tokensAll_of_readTerms hscan hterms
  have hroots : f.roots.map f.store.termAt = terms := by rw [← hf, Forest.map_termAt_roots htokens]
  have hwritable : f.Writable d.delimiter := by
    refine (hf ▸ Forest.linear_ofTerms htokens).writable fun u hu => writable_of_readTerms hscan hterms _ ?_
    rw [← hroots]
    exact List.mem_map_of_mem hu
  have hwritable' : f.Writable ',' := by
    rcases hcomma with hd | hcomma
    · rwa [hd] at hwritable
    · exact hwritable.of_variables hcomma
  have hcomma' : isUsable ',' = true := by decide
  have hread := read_write_eq (d := ⟨d.maxDepth, ','⟩) hcomma' hwritable' (by rwa [hroots])
  rwa [hroots, hf] at hread

theorem read_write_semicolon : ∃ forest, (Dialect.read ⟨3, ';'⟩ "f('a,(';x  y;;g( )) b").result = .ok forest ∧
    forest.write = "f('a,(', x y, , g()) b" ∧ (Dialect.read ⟨3, ','⟩ forest.write).result = .ok forest := by
  have hread : (Dialect.read ⟨3, ';'⟩ "f('a,(';x  y;;g( )) b").result =
      .ok ⟨⟨#[.literal "a,(", .call "g" [], .variable "x y", .variable "", .call "f" [⟨0⟩, ⟨2⟩, ⟨3⟩, ⟨1⟩],
        .variable "b"]⟩, [⟨4⟩, ⟨5⟩]⟩ := rfl
  refine ⟨_, hread, rfl, read_write hread (Or.inr fun t name ht => ?_)⟩
  rw [Store.get?_eq_toList] at ht
  have hmem := List.mem_of_getElem? ht
  simp only [Store.toList, List.mem_cons, List.not_mem_nil, or_false, reduceCtorEq, false_or,
    Entry.variable.injEq] at hmem
  rcases hmem with rfl | rfl | rfl <;> decide

/-- **A forest that can be written is written to a text that is read to a forest of the same terms.** -/
theorem read_write_unfolds (hd : isUsable d.delimiter = true) (h : f.Writable d.delimiter)
    (hheights : ∀ terms, f.Unfolds terms → Term.heights terms < d.maxDepth) :
    ∃ forest terms, (d.read (f.write d.delimiter)).result = .ok forest ∧ f.Unfolds terms ∧ forest.Unfolds terms := by
  have hunfolds := Forest.unfolds_map_termAt h.ordered h.stored
  have hwritable : Term.WritableAll d.delimiter (f.roots.map f.store.termAt) := by
    rw [Term.writableAll_iff]
    intro t ht
    obtain ⟨u, hu, rfl⟩ := List.mem_map.mp ht
    exact h.termAt (h.stored u hu)
  exact ⟨_, _, read_write_eq hd h (hheights _ hunfolds), hunfolds,
    Forest.unfolds_ofTerms (Term.tokensAll_of_writable hwritable)⟩

/-- Tokens are shared, and the delimiter is the name of a call. -/
def sharedForest : Forest :=
  ⟨⟨#[.variable "a b", .variable "", .call "d" [⟨0⟩, ⟨1⟩, ⟨0⟩], .call "f" [⟨2⟩, ⟨2⟩]]⟩, [⟨3⟩, ⟨2⟩]⟩

theorem writable_shared : sharedForest.Writable 'd' where
  ordered := by
    rintro ⟨_ | _ | _ | _ | i⟩ e he <;> cases he <;> decide
  stored := by decide
  literals := by
    rintro ⟨_ | _ | _ | _ | i⟩ content he <;> cases he
  phrases := by
    rintro ⟨_ | _ | _ | _ | i⟩ name he <;> cases he
    all_goals
      refine ⟨⟨?_, by decide, by decide⟩, ⟨?_, by decide⟩, by decide⟩
      · simp [IsPlain, Argument.isStructural]
      · simp [Text.isBlank, Text.inRanges, Text.blankRanges]
  names := by
    rintro ⟨_ | _ | _ | _ | i⟩ name arguments he <;> cases he
    · exact ⟨'d', [], rfl, by decide, by decide, by simp⟩
    · exact ⟨'f', [], rfl, by decide, by decide, by simp⟩
  arguments := by
    rintro ⟨_ | _ | _ | _ | i⟩ name u he <;> cases he
  words := by
    simp [sharedForest, Store.get?]

theorem read_write_unfolds_shared : sharedForest.write 'd' = "f(d(a bd d a b)d d(a bd d a b)) d(a bd d a b)" ∧
    ∃ forest terms, (Dialect.read ⟨3, 'd'⟩ (sharedForest.write 'd')).result = .ok forest ∧
      sharedForest.Unfolds terms ∧ forest.Unfolds terms := by
  refine ⟨rfl, read_write_unfolds (d := ⟨3, 'd'⟩) (by decide) writable_shared fun terms hterms => ?_⟩
  have hunfolds : sharedForest.Unfolds _ := ⟨3, rfl⟩
  rw [hterms.unique hunfolds]
  decide

end Dialect

end CallExpr

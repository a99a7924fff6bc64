import CallExpr.Proofs.Recognition

/-!
# Reading on top of open groups

Items that are read by themselves are read in the same way on top of other groups.

* `Groups.atop`: the groups with others below them. A step does the same there (`Groups.step_atop`), and so does a run
  (`Groups.run_atop`), unless it would close a group that is below.
* `flattens_of_run`, `readsForest_iff`: so the items of a source are read to the same wherever no name ends before them.
* `ReadsForest.append`, `ReadsForest.of_space`, `ReadsForest.of_append_space`: sources one after the other, and a source
  without the space before or after it.
* `ReadsForest.readsArgument`: a source with one expression is an argument.
-/

namespace CallExpr

open Grammar

/-! ## Names with more before them -/

section Names

variable {α : Type} {xs left : List (Item α)}

theorem mem_nameRun_append {c : Char} (h : c ∈ nameRun (xs ++ left)) : c ∈ nameRun xs ∨ c ∈ nameRun left := by
  induction xs with
  | nil => exact Or.inr h
  | cons x xs ih =>
    cases x with
    | token a => cases h
    | char c' =>
      simp only [List.cons_append, nameRun] at h ⊢
      by_cases hc : isNameChar c' = true
      · rw [if_pos hc] at h ⊢
        rcases List.mem_cons.mp h with rfl | h
        · exact Or.inl List.mem_cons_self
        · exact (ih h).imp_left (List.mem_cons_of_mem c')
      · rw [if_neg hc] at h
        cases h

/-- What comes before matters for no name, if no name ends there. -/
theorem nameBefore_append (h : nameBefore left = []) (xs : List (Item α)) :
    nameBefore (xs ++ left) = nameBefore xs := by
  obtain ⟨rest, hxs, hrest⟩ := exists_nameBefore xs
  have hnil : nameBefore (rest ++ left) = [] := by
    rw [nameBefore_eq_nil_iff] at h hrest ⊢
    intro c hc
    exact (mem_nameRun_append hc).elim (hrest c) (h c)
  by_cases hname : nameBefore xs = []
  · rw [hname] at hxs ⊢
    rwa [show xs = rest from hxs]
  · rw [hxs, List.append_assoc, nameBefore_name (isName_nameBefore hname) hnil, ← hxs]

theorem length_nameBefore_le (xs : List (Item α)) : (nameBefore xs).length ≤ xs.length := by
  obtain ⟨rest, hxs, -⟩ := exists_nameBefore xs
  have := congrArg List.length hxs
  simp only [List.length_append, List.length_map, List.length_reverse] at this
  omega

end Names

namespace Groups

variable {d : Char} {base g : Groups} {items inner : List (Item Term)} {x : Item Term}

/-! ## Groups with others below them -/

/-- The items and the open groups, on top of `base`. -/
def stackOn (base : Groups) (inner : List (Item Term)) : (outer : List (List (Item Term))) → Groups
  | [] => ⟨inner ++ base.inner, base.outer⟩
  | before :: outer => ⟨inner, (stackOn base before outer).inner :: (stackOn base before outer).outer⟩

/-- The groups on top of `base`. The outermost items of `g` come after the innermost of `base`. -/
def atop (base g : Groups) : Groups :=
  stackOn base g.inner g.outer

@[simp]
theorem atop_start (base : Groups) : atop base {} = base := rfl

@[simp]
theorem atop_level (base : Groups) (inner : List (Item Term)) :
    atop base ⟨inner, []⟩ = ⟨inner ++ base.inner, base.outer⟩ := rfl

/-- Only the items of the innermost group can be seen. -/
theorem exists_stackOn (hbase : nameBefore base.inner = []) (outer : List (List (Item Term))) :
    ∃ rest below, nameBefore rest = [] ∧ ∀ inner, stackOn base inner outer = ⟨inner ++ rest, below⟩ := by
  cases outer with
  | nil => exact ⟨base.inner, base.outer, hbase, fun inner => rfl⟩
  | cons before outer =>
    refine ⟨[], (stackOn base before outer).inner :: (stackOn base before outer).outer, rfl, fun inner => ?_⟩
    rw [List.append_nil, stackOn]

/-- Closing a group that is not of the base does the same on top of the base. -/
theorem close_atop_of_ne (hbase : nameBefore base.inner = []) (h : g.outer ≠ []) :
    (atop base g).close d = (g.close d).map (atop base) := by
  obtain ⟨inner, _ | ⟨before, outer⟩⟩ := g
  · exact absurd rfl h
  · obtain ⟨rest, below, hrest, hstack⟩ := exists_stackOn hbase outer
    have hname := nameBefore_append hrest before
    have hdrop : (before ++ rest).drop (nameBefore before).length = before.drop (nameBefore before).length ++ rest :=
      List.drop_append_of_le_length (length_nameBefore_le before)
    simp only [atop, stackOn, close, hstack before, hname, hdrop]
    by_cases hempty : (nameBefore before).isEmpty = true
    · rw [if_pos hempty, if_pos hempty, Option.map_none]
    · rw [if_neg hempty, if_neg hempty]
      cases Argument.ofBody d inner.reverse with
      | error e => rfl
      | ok arguments => rw [Option.map_some, atop, hstack, List.cons_append]

theorem close_atop (hbase : nameBefore base.inner = []) (h : base.outer = [] ∨ (g.close d).isSome = true) :
    (atop base g).close d = (g.close d).map (atop base) := by
  obtain ⟨inner, _ | ⟨before, outer⟩⟩ := g
  · -- There is no group to close, above or below.
    have houter : base.outer = [] := h.resolve_right (by simp [close])
    simp [close, houter]
  · exact close_atop_of_ne hbase (List.cons_ne_nil before outer)

/-- **A step does the same on top of other groups**, unless it closes one of them. -/
theorem step_atop (hbase : nameBefore base.inner = []) (h : base.outer = [] ∨ (step d g x).isSome = true) :
    step d (atop base g) x = (step d g x).map (atop base) := by
  unfold step at h ⊢
  by_cases hopen : x.is '(' = true
  · rw [if_pos hopen, if_pos hopen]
    rfl
  · by_cases hclose : x.is ')' = true
    · simp only [if_neg hopen, if_pos hclose] at h ⊢
      exact close_atop hbase h
    · rw [if_neg hopen, if_neg hclose, if_neg hopen, if_neg hclose]
      obtain ⟨inner, _ | ⟨before, outer⟩⟩ := g <;> rfl

/-- **A run does the same on top of other groups**, unless it closes one of them. -/
theorem run_atop (hbase : nameBefore base.inner = []) (h : base.outer = [] ∨ (run d g items).isSome = true) :
    run d (atop base g) items = (run d g items).map (atop base) := by
  induction items generalizing g with
  | nil => rfl
  | cons x items ih =>
    rw [run_cons] at h
    have hstep : base.outer = [] ∨ (step d g x).isSome = true := h.imp_right Option.isSome_of_isSome_bind
    rw [run_cons, run_cons, step_atop hbase hstep]
    cases hnext : step d g x with
    | none => rfl
    | some g' =>
      rw [hnext] at h
      exact ih h

end Groups

section Sources

variable {d : Char} {items more flat inner : List (Item Term)} {t : Term} {ts us : List Term}

/-- What is read without an open group at the end is read to the same everywhere. -/
theorem flattens_of_run (h : Groups.run d {} items = some ⟨inner, []⟩) : Flattens d items inner.reverse := by
  intro g hg
  have hrun : Groups.run d (Groups.atop g {}) items = (Groups.run d {} items).map (Groups.atop g) :=
    Groups.run_atop hg (.inr (by rw [h]; rfl))
  rw [Groups.atop_start, h] at hrun
  rw [hrun, Option.map_some, Groups.atop_level, List.reverse_reverse]

theorem readsForest_iff : ReadsForest d items ts ↔ readTerms d items = some ts := by
  constructor
  · exact ReadsForest.readTerms
  · intro h
    obtain ⟨inner, arguments, hrun, harguments, hts⟩ := readTerms_eq_some_iff.mp h
    exact ⟨inner.reverse, arguments, flattens_of_run hrun, harguments, hts⟩

/-! ## The top level -/

/-- A space at the top level separates what comes before it from what comes after it. -/
theorem ofTopLevel_append (xs ys : List (Item Term)) : Argument.ofTopLevel d (xs ++ .char ' ' :: ys) = (do
    let arguments ← Argument.ofTopLevel d xs
    let more ← Argument.ofTopLevel d ys
    return arguments ++ more) := by
  have hspace : (Item.char ' ' : Item Term).isSpace = true := rfl
  simp only [Argument.ofTopLevel, Argument.ofPieces, List.splitOnP_append_cons xs ys hspace, List.filter_append,
    List.mapM_append]

theorem ofTopLevel_append_space (xs : List (Item Term)) :
    Argument.ofTopLevel d (xs ++ [.char ' ']) = Argument.ofTopLevel d xs := by
  have hnil : Argument.ofTopLevel d ([] : List (Item Term)) = .ok [] := rfl
  rw [ofTopLevel_append, hnil]
  cases Argument.ofTopLevel d xs with
  | error e => rfl
  | ok arguments => exact congrArg Except.ok (List.append_nil arguments)

/-- Items that stand for one piece are this piece with spaces around it. -/
theorem exists_of_pieces {piece : List (Item Term)}
    (h : (flat.splitOnP Item.isSpace).filter (fun piece => !piece.isEmpty) = [piece]) :
    ∃ m n, flat = spaces m ++ piece ++ spaces n := by
  induction flat using splitOnP_induction (p := Item.isSpace) with
  | one other _ =>
    by_cases hempty : other = []
    · rw [List.filter_cons_of_neg (by simp [hempty])] at h
      cases h
    · rw [List.filter_cons_of_pos (by simpa using hempty)] at h
      obtain ⟨rfl, -⟩ := List.cons.inj h
      exact ⟨0, 0, by simp [spaces]⟩
  | cons other x rest _ hx ih =>
    obtain rfl := Item.isSpace_eq_true_iff.mp hx
    by_cases hempty : other = []
    · rw [List.filter_cons_of_neg (by simp [hempty])] at h
      obtain ⟨m, n, hrest⟩ := ih h
      exact ⟨m + 1, n, by rw [hempty, hrest]; rfl⟩
    · rw [List.filter_cons_of_pos (by simpa using hempty)] at h
      obtain ⟨rfl, hnone⟩ := List.cons.inj h
      have hspaces : ∀ y ∈ rest, y.isSpace = true := by
        intro y hy
        by_contra hspace
        obtain ⟨last, hlast, hmem⟩ := exists_mem_splitOnP hy (by simpa using hspace)
        have := List.filter_eq_nil_iff.mp hnone last hlast
        simp [List.ne_nil_of_mem hmem] at this
      refine ⟨0, rest.length + 1, ?_⟩
      rw [spaces_succ, ← eq_spaces hspaces]
      rfl

/-- A single expression is one piece, with spaces around it. -/
theorem exists_of_ofTopLevel {a : Argument Term} (h : Argument.ofTopLevel d flat = .ok [a]) :
    ∃ m piece n, flat = spaces m ++ piece ++ spaces n ∧ (∀ x ∈ piece, x.isSpace = false) ∧
      Argument.ofPiece d piece = .ok a := by
  unfold Argument.ofTopLevel at h
  have hspace : ∀ piece ∈ (flat.splitOnP Item.isSpace).filter (fun piece => !piece.isEmpty),
      ∀ x ∈ piece, x.isSpace = false :=
    fun piece hpiece => eq_false_of_mem_splitOnP (List.mem_filter.mp hpiece).1
  cases hpieces : (flat.splitOnP Item.isSpace).filter (fun piece => !piece.isEmpty) with
  | nil =>
    rw [hpieces] at h
    cases h
  | cons piece pieces =>
    rw [hpieces] at h hspace
    obtain ⟨_, _, ha, hrest, heq⟩ := Argument.ofPieces_cons_eq_ok_iff.mp h
    obtain ⟨rfl, rfl⟩ := List.cons.inj heq
    cases pieces with
    | cons _ _ =>
      obtain ⟨_, _, _, _, heq⟩ := Argument.ofPieces_cons_eq_ok_iff.mp hrest
      cases heq
    | nil =>
      obtain ⟨m, n, hflat⟩ := exists_of_pieces hpieces
      exact ⟨m, piece, n, hflat, hspace piece List.mem_cons_self, ha⟩

theorem is_eq_false_of_ofPiece {piece : List (Item Term)} {a : Argument Term}
    (h : Argument.ofPiece d piece = .ok a) : ∀ x ∈ piece, x.is d = false := by
  intro x hx
  rcases Argument.ofPiece_eq_ok_iff.mp h with ⟨t, rfl, -⟩ | ⟨cs, rfl, hplain, -⟩
  · rw [List.mem_singleton.mp hx]
    rfl
  · obtain ⟨c, hc, rfl⟩ := List.mem_map.mp hx
    simpa [Item.is] using (Argument.isStructural_eq_false_iff.mp (hplain c hc)).2

/-! ## Sources with more around them -/

namespace ReadsForest

/-- Two sources with a space between them. -/
theorem append (h : ReadsForest d items ts) (hmore : ReadsForest d more us) :
    ReadsForest d (items ++ [.char ' '] ++ more) (ts ++ us) := by
  obtain ⟨flat, arguments, hflat, harguments, rfl⟩ := h
  obtain ⟨flat', arguments', hflat', harguments', rfl⟩ := hmore
  refine ⟨flat ++ [.char ' '] ++ flat', arguments ++ arguments', ?_, ?_, List.map_append⟩
  · apply (hflat.append_of_not_paren (by simp [Item.isParen, Item.is])).append hflat'
    intro inner _
    rw [List.reverse_append]
    exact nameBefore_char (by decide) _
  · rw [List.append_assoc, List.singleton_append, ofTopLevel_append, harguments, harguments']
    rfl

/-- The space after a source does not matter. -/
theorem of_append_space (h : ReadsForest d (items ++ [.char ' ']) ts) : ReadsForest d items ts := by
  obtain ⟨inner, arguments, hrun, harguments, hts⟩ := readTerms_eq_some_iff.mp h.readTerms
  rw [Groups.run_append, Option.bind_eq_some_iff] at hrun
  obtain ⟨⟨before, outer⟩, hbefore, hspace⟩ := hrun
  obtain ⟨rfl, rfl⟩ := Groups.mk.inj (Option.some.inj hspace)
  rw [List.reverse_cons, ofTopLevel_append_space] at harguments
  exact ⟨before.reverse, arguments, flattens_of_run hbefore, harguments, hts⟩

/-- The space before a source does not matter. -/
theorem of_space (h : ReadsForest d (.char ' ' :: items) ts) : ReadsForest d items ts := by
  obtain ⟨inner, arguments, hrun, harguments, hts⟩ := readTerms_eq_some_iff.mp h.readTerms
  -- The items are read on top of the space.
  have hatop : Groups.run d (Groups.atop ⟨[.char ' '], []⟩ {}) items =
      (Groups.run d {} items).map (Groups.atop ⟨[.char ' '], []⟩) :=
    Groups.run_atop (nameBefore_char (by decide) _) (.inl rfl)
  rw [Groups.run_cons, Groups.step_of_not_paren rfl, Option.bind_some, Groups.push] at hrun
  rw [Groups.atop_start, hrun, eq_comm, Option.map_eq_some_iff] at hatop
  obtain ⟨⟨before, outer⟩, hbefore, hinner⟩ := hatop
  cases outer with
  | cons _ _ => cases hinner
  | nil =>
    obtain ⟨rfl, -⟩ := Groups.mk.inj hinner
    rw [List.reverse_append] at harguments
    rw [show [Item.char ' '].reverse = (spaces 1 : List (Item Term)) from rfl, ofTopLevel_spaces] at harguments
    exact ⟨before.reverse, arguments, flattens_of_run hbefore, harguments, hts⟩

/-- A source with one expression is not all spaces. -/
theorem exists_not_space (h : ReadsForest d items [t]) : ∃ x ∈ items, x.isSpace = false := by
  by_contra hall
  have hspaces : items = spaces items.length := by
    apply eq_spaces
    intro x hx
    by_contra hspace
    exact hall ⟨x, hx, by simpa using hspace⟩
  rw [hspaces] at h
  have hnil := (ReadsForest.nil d).spaces_append items.length
  rw [List.append_nil] at hnil
  exact absurd (h.readTerms.symm.trans hnil.readTerms) (by simp)

/-- **A source with one expression is an argument.** -/
theorem readsArgument (hd : Dialect.isUsable d = true) (h : ReadsForest d items [t]) : ReadsArgument d items t := by
  obtain ⟨flat, arguments, hflat, harguments, hts⟩ := h
  obtain ⟨a, rfl, rfl⟩ := List.map_eq_singleton_iff.mp hts
  obtain ⟨m, piece, n, rfl, hspace, ha⟩ := exists_of_ofTopLevel harguments
  have hne := Dialect.ne_space_of_isUsable hd
  have htrimmed : Item.Trimmed piece :=
    ⟨fun x hx => hspace x (List.mem_of_head? hx), fun x hx => hspace x (List.mem_of_getLast? hx)⟩
  refine ⟨_, a, hflat, is_of_mem_spaced hne m n (is_eq_false_of_ofPiece ha), ?_, rfl⟩
  rwa [trimSpaces_of_trimmed m n htrimmed]

end ReadsForest

end Sources

end CallExpr

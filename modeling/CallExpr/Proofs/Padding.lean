import CallExpr.Proofs.Stacking

/-!
# Spaces that do not matter

A space right inside of a parenthesis, beside a delimiter or at an end of a source is trimmed or splits nothing off.

* `Argument.ofBody_space`, `Argument.ofBody_append_space`, `Argument.ofBody_delimiter`: what the body of a call is read
  to, with a space at either end and around a delimiter.
* `Groups.Similar`: two states that close their innermost group alike and end alike. Whatever is read on top of them is
  read alike (`Groups.Similar.result_eq`).
* `readTerms_insert_after`, `readTerms_insert_before`, `readTerms_space`, `readTerms_append_space`: one space more or
  less, and the same terms.
-/

namespace CallExpr

open Grammar

/-! ## Spaces in a body -/

section Bodies

variable {α : Type} {d : Char} {items : List (Item α)}

theorem trimSpaces_append_space (xs : List (Item α)) : trimSpaces (xs ++ [.char ' ']) = trimSpaces xs := by
  obtain ⟨before, after, hxs, hbefore, hafter⟩ := exists_trimSpaces xs
  have hspaces : (spaces after.length ++ [Item.char ' '] : List (Item α)) = spaces (after.length + 1) :=
    List.replicate_succ'.symm
  have hsplit : xs ++ [Item.char ' '] = spaces before.length ++ trimSpaces xs ++ spaces (after.length + 1) := by
    rw [← hspaces, ← eq_spaces hbefore, ← eq_spaces hafter, ← List.append_assoc, ← hxs]
  rw [hsplit, trimSpaces_of_trimmed _ _ (trimmed_trimSpaces xs)]

/-- A space behind the pieces is trimmed. -/
theorem splitOnP_append_space (hd : d ≠ ' ') (xs : List (Item α)) :
    ((xs ++ [Item.char ' ']).splitOnP (Item.is d)).map trimSpaces = (xs.splitOnP (Item.is d)).map trimSpaces := by
  have hspace : (Item.char ' ' : Item α).is d = false := by simpa [Item.is] using hd.symm
  induction xs using splitOnP_induction (p := Item.is d) with
  | one piece hpiece =>
    have hmore : ∀ x ∈ piece ++ [.char ' '], x.is d = false :=
      List.forall_mem_append.mpr ⟨hpiece, List.forall_mem_singleton.mpr hspace⟩
    rw [List.splitOnP_eq_singleton hmore, List.map_singleton, trimSpaces_append_space, List.map_singleton]
  | cons piece x rest hpiece hx ih =>
    rw [List.append_assoc, List.cons_append, List.splitOnP_append_cons_of_forall_mem hpiece x hx, List.map_cons, ih,
      List.map_cons]

namespace Argument

theorem ofBody_space (hd : d ≠ ' ') (body : List (Item α)) : ofBody d (.char ' ' :: body) = ofBody d body := by
  have hall : (Item.char ' ' :: body).all Item.isSpace = body.all Item.isSpace := rfl
  have hpieces := splitOnP_spaces_append hd 1 body
  rw [ofBody, ofBody, hall, ← hpieces]
  rfl

theorem ofBody_append_space (hd : d ≠ ' ') (body : List (Item α)) :
    ofBody d (body ++ [.char ' ']) = ofBody d body := by
  have hall : (body ++ [Item.char ' ']).all Item.isSpace = body.all Item.isSpace := by simp [Item.isSpace]
  rw [ofBody, ofBody, hall, splitOnP_append_space hd]

/-- A delimiter separates the arguments before it from those after it. -/
theorem ofBody_delimiter (hd : d ≠ ' ') (xs ys : List (Item α)) : ofBody d (xs ++ .char d :: ys) =
    ofPieces d ((xs.splitOnP (Item.is d)).map trimSpaces ++ (ys.splitOnP (Item.is d)).map trimSpaces) := by
  have hall : ¬ (xs ++ Item.char d :: ys).all Item.isSpace = true := by simp [Item.isSpace, hd]
  have hdelimiter : (Item.char d : Item α).is d = true := Item.is_eq_true_iff.mpr rfl
  rw [ofBody, if_neg hall, List.splitOnP_append_cons xs ys hdelimiter, List.map_append]

/-- At the top level no expression holds a delimiter. -/
theorem ofTopLevel_delimiter {items : List (Item Term)} (hd : d ≠ ' ') (h : .char d ∈ items) :
    (ofTopLevel d items).toOption = none := by
  cases hargs : ofTopLevel d items with
  | error e => rfl
  | ok arguments =>
    have hspace : (Item.char d : Item Term).isSpace = false := by simpa [Item.isSpace] using hd
    obtain ⟨piece, hpiece, hmem⟩ := exists_mem_splitOnP h hspace
    have hkept : piece ∈ (items.splitOnP Item.isSpace).filter fun piece => !piece.isEmpty :=
      List.mem_filter.mpr ⟨hpiece, by simpa using List.ne_nil_of_mem hmem⟩
    obtain ⟨a, -, ha⟩ := exists_ofPiece_of_mem hargs hkept
    have hfalse := is_eq_false_of_ofPiece ha _ hmem
    rw [Item.is_eq_true_iff.mpr rfl] at hfalse
    cases hfalse

end Argument

end Bodies

/-! ## Similar states -/

namespace Groups

variable {d : Char} {base base' g : Groups} {inner inner' items : List (Item Term)} {outer : List (List (Item Term))}
  {x : Item Term}

/-- What closing a group does depends on the arguments in it. -/
theorem close_congr (h : Argument.ofBody d inner.reverse = Argument.ofBody d inner'.reverse) :
    close d ⟨inner, outer⟩ = close d ⟨inner', outer⟩ := by
  simp only [close, h]

theorem finish_congr (h : outer = [] →
    (Argument.ofTopLevel d inner.reverse).toOption = (Argument.ofTopLevel d inner'.reverse).toOption) :
    finish d ⟨inner, outer⟩ = finish d ⟨inner', outer⟩ := by
  cases outer with
  | nil => simp only [finish, h rfl]
  | cons before outer => rfl

/-- Only closing a group can fail. -/
theorem step_eq_none (h : step d g x = none) : x = .char ')' ∧ g.close d = none := by
  unfold step at h
  split at h
  · cases h
  · split at h
    · next hx => exact ⟨Item.is_eq_true_iff.mp hx, h⟩
    · cases h

/-- The innermost groups look different, but they close alike and end alike, and no name ends there. -/
structure Similar (d : Char) (base base' : Groups) : Prop where
  name : nameBefore base.inner = []
  name' : nameBefore base'.inner = []
  close_eq : ∀ inner, close d (atop base ⟨inner, []⟩) = close d (atop base' ⟨inner, []⟩)
  finish_eq : ∀ inner, finish d (atop base ⟨inner, []⟩) = finish d (atop base' ⟨inner, []⟩)

/-- **Items are read alike on top of similar states.** -/
theorem Similar.result_eq (h : Similar d base base') (g : Groups) (items : List (Item Term)) :
    ((atop base g).run d items).bind (finish d) = ((atop base' g).run d items).bind (finish d) := by
  induction items generalizing g with
  | nil =>
    obtain ⟨inner, _ | ⟨before, outer⟩⟩ := g
    · exact h.finish_eq inner
    · rfl
  | cons x items ih =>
    rw [run_cons, run_cons]
    cases hstep : step d g x with
    | some g' =>
      have hsome : (step d g x).isSome = true := by rw [hstep]; rfl
      rw [step_atop h.name (.inr hsome), step_atop h.name' (.inr hsome), hstep]
      exact ih g'
    | none =>
      obtain ⟨rfl, hclose⟩ := step_eq_none hstep
      rw [step_close, step_close]
      obtain ⟨inner, _ | ⟨before, outer⟩⟩ := g
      · -- The innermost groups of the two states close, and what is left is the same.
        rw [h.close_eq]
      · have hne : (Groups.mk inner (before :: outer)).outer ≠ [] := List.cons_ne_nil before outer
        rw [close_atop_of_ne h.name hne, close_atop_of_ne h.name' hne, hclose]
        rfl

/-- A space at the start of a group or of a source. -/
theorem similar_open (hd : d ≠ ' ') (outer : List (List (Item Term))) : Similar d ⟨[], outer⟩ ⟨[.char ' '], outer⟩ where
  name := rfl
  name' := nameBefore_char (by decide) []
  close_eq inner := by
    refine close_congr ?_
    simp only [List.append_nil, List.reverse_append, List.reverse_singleton, List.singleton_append]
    rw [Argument.ofBody_space hd]
  finish_eq inner := by
    refine finish_congr fun _ => ?_
    rw [List.append_nil, List.reverse_append]
    exact congrArg Except.toOption (ofTopLevel_spaces 1 inner.reverse).symm

/-- Delimiters in groups that are read to the same arguments. At the top level there is no delimiter. -/
theorem similar_of_delimiter (hd : d ≠ ' ') (hname : nameBefore inner = []) (hname' : nameBefore inner' = [])
    (hmem : .char d ∈ inner) (hmem' : .char d ∈ inner')
    (h : ∀ more, Argument.ofBody d (inner.reverse ++ more) = Argument.ofBody d (inner'.reverse ++ more))
    (outer : List (List (Item Term))) : Similar d ⟨inner, outer⟩ ⟨inner', outer⟩ where
  name := hname
  name' := hname'
  close_eq more := by
    refine close_congr ?_
    rw [List.reverse_append, List.reverse_append]
    exact h more.reverse
  finish_eq more := by
    refine finish_congr fun _ => ?_
    rw [Argument.ofTopLevel_delimiter hd (List.mem_reverse.mpr (List.mem_append_right more hmem)),
      Argument.ofTopLevel_delimiter hd (List.mem_reverse.mpr (List.mem_append_right more hmem'))]

/-- A space after a delimiter. -/
theorem similar_after (hd : d ≠ ' ') (hname : isNameChar d = false) (inner : List (Item Term))
    (outer : List (List (Item Term))) :
    Similar d ⟨.char d :: inner, outer⟩ ⟨.char ' ' :: .char d :: inner, outer⟩ := by
  refine similar_of_delimiter hd (nameBefore_char hname _) (nameBefore_char (by decide) _) List.mem_cons_self
    (List.mem_cons_of_mem _ List.mem_cons_self) (fun more => ?_) outer
  simp only [List.reverse_cons, List.append_assoc, List.cons_append]
  rw [Argument.ofBody_delimiter hd, Argument.ofBody_delimiter hd]
  exact congrArg _ (congrArg _ (splitOnP_spaces_append hd 1 more).symm)

/-- A space before a delimiter. -/
theorem similar_before (hd : d ≠ ' ') (hname : isNameChar d = false) (inner : List (Item Term))
    (outer : List (List (Item Term))) :
    Similar d ⟨.char d :: inner, outer⟩ ⟨.char d :: .char ' ' :: inner, outer⟩ := by
  refine similar_of_delimiter hd (nameBefore_char hname _) (nameBefore_char hname _) List.mem_cons_self
    List.mem_cons_self (fun more => ?_) outer
  rw [List.reverse_cons, List.reverse_cons, List.reverse_cons, List.append_assoc, List.append_assoc (_ ++ _),
    List.singleton_append, Argument.ofBody_delimiter hd, Argument.ofBody_delimiter hd, splitOnP_append_space hd]

end Groups

/-! ## Spaces in a source -/

section Sources

variable {d c : Char}

theorem readTerms_append (xs ys : List (Item Term)) :
    readTerms d (xs ++ ys) = (Groups.run d {} xs).bind fun g => (Groups.run d g ys).bind (Groups.finish d) := by
  rw [readTerms, Groups.run_append, Option.bind_assoc]

/-- A space after an open parenthesis or a delimiter does not matter. -/
theorem readTerms_insert_after (hd : Dialect.isUsable d = true) (hname : isNameChar d = false) (hc : c = '(' ∨ c = d)
    (xs ys : List (Item Term)) :
    readTerms d (xs ++ .char c :: .char ' ' :: ys) = readTerms d (xs ++ .char c :: ys) := by
  have hspace := Dialect.ne_space_of_isUsable hd
  obtain ⟨-, hparen, -⟩ := Dialect.isUsable_iff.mp hd
  rw [readTerms_append, readTerms_append]
  refine Option.bind_congr fun g _ => ?_
  rw [Groups.run_cons, Groups.run_cons]
  rcases hc with rfl | rfl
  · exact ((Groups.similar_open hspace (g.inner :: g.outer)).result_eq {} ys).symm
  · rw [Groups.step_of_not_paren (Item.isParen_char.mpr hparen)]
    exact ((Groups.similar_after hspace hname g.inner g.outer).result_eq {} ys).symm

/-- A space before a closing parenthesis or a delimiter does not matter. -/
theorem readTerms_insert_before (hd : Dialect.isUsable d = true) (hname : isNameChar d = false) (hc : c = ')' ∨ c = d)
    (xs ys : List (Item Term)) :
    readTerms d (xs ++ .char ' ' :: .char c :: ys) = readTerms d (xs ++ .char c :: ys) := by
  have hspace := Dialect.ne_space_of_isUsable hd
  obtain ⟨-, hparen, -⟩ := Dialect.isUsable_iff.mp hd
  rw [readTerms_append, readTerms_append]
  refine Option.bind_congr fun g _ => ?_
  rw [Groups.run_cons, Groups.step_of_not_paren rfl, Option.bind_some, Groups.run_cons, Groups.run_cons]
  rcases hc with rfl | rfl
  · have hclose : (g.push (.char ' ')).close d = g.close d := by
      refine Groups.close_congr ?_
      rw [List.reverse_cons, Argument.ofBody_append_space hspace]
    rw [Groups.step_close, Groups.step_close, hclose]
  · have hmark : (Item.char c : Item Term).isParen = false := Item.isParen_char.mpr hparen
    rw [Groups.step_of_not_paren hmark, Groups.step_of_not_paren hmark]
    exact ((Groups.similar_before hspace hname g.inner g.outer).result_eq {} ys).symm

theorem readTerms_space (hd : Dialect.isUsable d = true) (xs : List (Item Term)) :
    readTerms d (.char ' ' :: xs) = readTerms d xs :=
  ((Groups.similar_open (Dialect.ne_space_of_isUsable hd) []).result_eq {} xs).symm

theorem readTerms_append_space (xs : List (Item Term)) : readTerms d (xs ++ [.char ' ']) = readTerms d xs := by
  rw [readTerms_append, readTerms]
  refine Option.bind_congr fun g _ => ?_
  refine Groups.finish_congr fun _ => ?_
  rw [List.reverse_cons, ofTopLevel_append_space]

end Sources

end CallExpr

import CallExpr.Proofs.Groups

/-!
# What is read derives

* `Covers.isArgument`, `Covers.isArguments`, `Covers.isBody`: the items between the parentheses of a call stand for its
  arguments, and each part of the text that they cover is a call.
* `isForest_of_readTerms`: terms that are read in one go derive from the grammar.
-/

namespace CallExpr

open Grammar

section Spaces

variable {α : Type} {xs : List (Item α)} {cs : List Char}

/-- Items that are all spaces are so many spaces. -/
theorem eq_spaces (h : ∀ x ∈ xs, x.isSpace = true) : xs = spaces xs.length :=
  List.eq_replicate_iff.mpr ⟨rfl, fun x hx => Item.isSpace_eq_true_iff.mp (h x hx)⟩

theorem isSpace_of_mem_spaces {n : Nat} {x : Item α} (h : x ∈ spaces n) : x.isSpace = true := by
  rw [List.eq_of_mem_replicate h]
  rfl

theorem spaces_eq_map (n : Nat) : (spaces n : List (Item α)) = (List.replicate n ' ').map .char := by
  rw [spaces, List.map_replicate]

theorem spaces_succ (n : Nat) : (spaces (n + 1) : List (Item α)) = .char ' ' :: spaces n := rfl

/-- Neither the first item nor the last is a space. -/
def Item.Trimmed (xs : List (Item α)) : Prop :=
  (∀ x ∈ xs.head?, x.isSpace = false) ∧ ∀ x ∈ xs.getLast?, x.isSpace = false

/-- Trimming leaves no space at the ends. -/
theorem trimmed_trimSpaces (xs : List (Item α)) : Item.Trimmed (trimSpaces xs) := by
  have hhead : ∀ (ys : List (Item α)), ∀ x ∈ (ys.dropWhile Item.isSpace).head?, x.isSpace = false := by
    intro ys x hx
    have := List.head?_dropWhile_not Item.isSpace ys
    rw [Option.mem_def.mp hx] at this
    simpa using this
  constructor
  · intro x hx
    -- The front is what the first trimming left, cut at the other end only.
    have hprefix : trimSpaces xs <+: xs.dropWhile Item.isSpace := by
      rw [← List.reverse_suffix, trimSpaces, List.reverse_reverse]
      exact List.dropWhile_suffix _
    obtain ⟨after, hafter⟩ := hprefix
    refine hhead xs x ?_
    rw [← hafter, List.head?_append, Option.mem_def.mp hx]
    rfl
  · intro x hx
    rw [trimSpaces, List.getLast?_reverse] at hx
    exact hhead _ x hx

/-- A phrase is plain and trimmed. -/
theorem isPhrase_iff {d : Char} : IsPhrase d cs ↔ IsPlain d cs ∧ Item.Trimmed (cs.map (Item.char : Char → Item α)) := by
  have hends : ∀ o : Option Char, (∀ x ∈ o.map (Item.char : Char → Item α), x.isSpace = false) ↔ o ≠ some ' ' := by
    intro o
    cases o <;> simp [Item.isSpace]
  rw [IsPhrase, Item.Trimmed, List.head?_map, List.getLast?_map, hends, hends]

end Spaces

namespace Covers

variable {d : Char} {items text : List (Item Term)} {arguments : List (Argument Term)} {a : Argument Term}

/-- A token covers itself or a call. -/
theorem isCall_of_token {t : Term} (h : Covers (IsCall d) [.token t] text) : text = [.token t] ∨ IsCall d text t := by
  cases h with
  | item _ h =>
    cases h with
    | nil => exact Or.inl rfl
  | part hcall h =>
    cases h with
    | nil =>
      rw [List.append_nil]
      exact Or.inr hcall

/-- Items that are not all spaces cover a text that is not all spaces. -/
theorem exists_not_space (h : Covers (IsCall d) items text) (hitems : ∃ x ∈ items, x.isSpace = false) :
    ∃ x ∈ text, x.isSpace = false := by
  induction h with
  | nil => exact hitems
  | item _ _ ih =>
    obtain ⟨x, hx, hspace⟩ := hitems
    rcases List.mem_cons.mp hx with rfl | hx
    · exact ⟨x, List.mem_cons_self, hspace⟩
    · obtain ⟨y, hy, hspace⟩ := ih ⟨x, hx, hspace⟩
      exact ⟨y, List.mem_cons_of_mem _ hy, hspace⟩
  | part hcall _ _ =>
    cases hcall with
    | mk => exact ⟨.char '(', by simp, rfl⟩

theorem isArgument (h : Covers (IsCall d) items text) (ha : Argument.ofPiece d (trimSpaces items) = .ok a) :
    IsArgument d text a.term := by
  obtain ⟨before, after, hsplit, hbefore, hafter⟩ := exists_trimSpaces items
  rw [hsplit, eq_spaces hbefore, eq_spaces hafter] at h
  obtain ⟨left, _, rfl, hleft, hright⟩ := h.split
  obtain ⟨_, middle, rfl, hspaces, hmiddle⟩ := hleft.split
  rw [spaces_eq_map] at hspaces hright
  rw [hspaces.eq_of_chars, hright.eq_of_chars, ← spaces_eq_map, ← spaces_eq_map]
  rcases Argument.ofPiece_eq_ok_iff.mp ha with ⟨t, htrim, rfl⟩ | ⟨cs, htrim, hplain, rfl⟩
  · rw [htrim] at hmiddle
    rcases hmiddle.isCall_of_token with rfl | hcall
    · rw [List.append_assoc, List.singleton_append]
      exact .known _ _ t
    · exact .call _ _ hcall
  · rw [htrim] at hmiddle
    rw [hmiddle.eq_of_chars]
    exact .phrase _ _ (isPhrase_iff.mpr ⟨hplain, htrim ▸ trimmed_trimSpaces items⟩)

/-- Pieces between delimiters are arguments between delimiters. -/
theorem isArguments (h : Covers (IsCall d) items text)
    (ha : Argument.ofPieces d ((items.splitOnP (Item.is d)).map trimSpaces) = .ok arguments) :
    IsArguments d text (arguments.map Argument.term) := by
  induction items using splitOnP_induction (p := Item.is d) generalizing text arguments with
  | one piece _ =>
    obtain ⟨a, rest, hread, hrest, rfl⟩ := Argument.ofPieces_cons_eq_ok_iff.mp ha
    cases hrest
    exact .one (h.isArgument hread)
  | cons piece x rest _ hx ih =>
    obtain rfl := Item.is_eq_true_iff.mp hx
    obtain ⟨a, others, hread, hothers, rfl⟩ := Argument.ofPieces_cons_eq_ok_iff.mp ha
    obtain ⟨before, _, rfl, hbefore, hafter⟩ := h.split
    cases hafter with
    | item _ hafter => exact .cons (hbefore.isArgument hread) (ih hafter hothers)

theorem isBody (h : Covers (IsCall d) items text) (ha : Argument.ofBody d items = .ok arguments) :
    IsBody d text (arguments.map Argument.term) := by
  unfold Argument.ofBody at ha
  split at ha
  · next hspaces =>
    cases ha
    rw [eq_spaces (List.all_eq_true.mp hspaces), spaces_eq_map] at h
    rw [h.eq_of_chars, ← spaces_eq_map]
    exact .empty _
  · next hspaces =>
    refine .arguments (h.isArguments ha) (h.exists_not_space ?_)
    simpa using hspaces

/-- An expression at the top level is a piece without spaces. -/
theorem isTop (h : Covers (IsCall d) items text) (ha : Argument.ofPiece d items = .ok a) (hne : items ≠ [])
    (hspace : ∀ x ∈ items, x.isSpace = false) : IsTop d text a.term := by
  rcases Argument.ofPiece_eq_ok_iff.mp ha with ⟨t, rfl, rfl⟩ | ⟨cs, rfl, hplain, rfl⟩
  · rcases h.isCall_of_token with rfl | hcall
    · exact .known t
    · exact .call hcall
  · rw [h.eq_of_chars]
    refine .word ⟨hplain, fun hnil => hne (by rw [hnil, List.map_nil]), fun hmem => ?_⟩
    have := hspace (.char ' ') (List.mem_map_of_mem hmem)
    cases this

/-- Pieces between spaces are expressions between spaces. -/
theorem isForest (h : Covers (IsCall d) items text) (ha : Argument.ofTopLevel d items = .ok arguments) :
    IsForest d text (arguments.map Argument.term) := by
  unfold Argument.ofTopLevel at ha
  induction items using splitOnP_induction (p := Item.isSpace) generalizing text arguments with
  | one piece hpiece =>
    by_cases hne : piece = []
    · subst hne
      cases ha
      cases h
      exact ⟨0, [], rfl, .nil⟩
    · rw [List.filter_cons_of_pos (by simpa using hne)] at ha
      obtain ⟨a, rest, hread, hrest, rfl⟩ := Argument.ofPieces_cons_eq_ok_iff.mp ha
      cases hrest
      exact ⟨0, text, rfl, .last (h.isTop hread hne hpiece)⟩
  | cons piece x rest hpiece hx ih =>
    obtain rfl := Item.isSpace_eq_true_iff.mp hx
    obtain ⟨before, _, rfl, hbefore, hafter⟩ := h.split
    cases hafter with
    | item _ hafter =>
      by_cases hne : piece = []
      · subst hne
        cases hbefore
        obtain ⟨n, inside, rfl, hinside⟩ := ih hafter ha
        exact ⟨n + 1, inside, rfl, hinside⟩
      · rw [List.filter_cons_of_pos (by simpa using hne)] at ha
        obtain ⟨a, others, hread, hothers, rfl⟩ := Argument.ofPieces_cons_eq_ok_iff.mp ha
        obtain ⟨n, inside, rfl, hinside⟩ := ih hafter hothers
        refine ⟨0, _, rfl, ?_⟩
        have := IsSequence.cons n (hbefore.isTop hread hne hpiece) hinside
        simpa [spaces_succ] using this

end Covers

variable {d : Char} {items : List (Item Term)} {terms : List Term}

theorem closed_isCall (d : Char) : Groups.Closed d (IsCall d) :=
  fun hname hcovers hbody => .mk hname (hcovers.isBody hbody)

/-- **Terms that are read derive from the grammar.** -/
theorem isForest_of_readTerms (h : readTerms d items = some terms) : IsForest d items terms := by
  obtain ⟨inner, arguments, hrun, hargs, rfl⟩ := readTerms_eq_some_iff.mp h
  have hcovers := Groups.covers_run (closed_isCall d) (.top .nil) hrun
  cases hcovers with
  | top hcovers => exact hcovers.isForest hargs

end CallExpr

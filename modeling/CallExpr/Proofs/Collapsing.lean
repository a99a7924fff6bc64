import CallExpr.Proofs.Tokens

/-!
# Blanks among items

Collapsing of items in which blanks have not been collapsed yet. A token ends a run of blanks, as any other character
does.

* `Item.collapseFrom`: one space for each run of blanks.
* `Item.collapseFrom_append`: what a part is collapsed to only depends on whether the part before it ends with a blank
  (`Item.endsBlank`), and is the same but for a space at its start (`Item.collapseFrom_false`).
* `Item.exists_collapseFrom_append`: blanks after a part leave one space at its end.
-/

namespace CallExpr

namespace Item

variable {α : Type} {inRun : Bool} {x : Item α} {xs ys blanks : List (Item α)}

def isBlank : Item α → Bool
  | char c => Text.isBlank c
  | token _ => false

theorem isBlank_of_mem_map_char {b : Bool} {cs : List Char} (h : ∀ c ∈ cs, Text.isBlank c = b) :
    ∀ x ∈ cs.map (char : Char → Item α), x.isBlank = b := by
  intro x hx
  obtain ⟨c, hc, rfl⟩ := List.mem_map.mp hx
  exact h c hc

/-- Writes one space for each run of blanks; `inRun` says that a blank stands before the items. -/
def collapseFrom : (inRun : Bool) → List (Item α) → List (Item α)
  | _, [] => []
  | inRun, x :: xs =>
    if x.isBlank then (if inRun then collapseFrom true xs else .char ' ' :: collapseFrom true xs)
    else x :: collapseFrom false xs

/-- Does a blank stand at the end? `inRun` says that one stands before the items. -/
def endsBlank : (inRun : Bool) → List (Item α) → Bool
  | inRun, [] => inRun
  | _, x :: xs => endsBlank x.isBlank xs

theorem collapseFrom_append (inRun : Bool) (xs ys : List (Item α)) :
    collapseFrom inRun (xs ++ ys) = collapseFrom inRun xs ++ collapseFrom (endsBlank inRun xs) ys := by
  induction xs generalizing inRun with
  | nil => rfl
  | cons x xs ih =>
    rw [List.cons_append, collapseFrom, collapseFrom, endsBlank, ih, ih]
    cases x.isBlank <;> cases inRun <;> rfl

/-- An item that is no blank ends a run of them. -/
theorem collapseFrom_append_cons (hx : x.isBlank = false) (inRun : Bool) (xs ys : List (Item α)) :
    collapseFrom inRun (xs ++ x :: ys) = collapseFrom inRun xs ++ x :: collapseFrom false ys := by
  rw [collapseFrom_append, collapseFrom, hx, if_neg Bool.false_ne_true]

theorem collapseFrom_of_not_blank (h : ∀ x ∈ xs, x.isBlank = false) : collapseFrom inRun xs = xs := by
  induction xs generalizing inRun with
  | nil => rfl
  | cons x xs ih =>
    obtain ⟨hx, h⟩ := List.forall_mem_cons.mp h
    rw [collapseFrom, hx, if_neg Bool.false_ne_true, ih h]

/-- The items are collapsed to the same after a blank, but for a space at the start. -/
theorem collapseFrom_false (xs : List (Item α)) :
    collapseFrom false xs = collapseFrom true xs ∨ collapseFrom false xs = .char ' ' :: collapseFrom true xs := by
  cases xs with
  | nil => exact Or.inl rfl
  | cons x xs =>
    by_cases hx : x.isBlank = true
    · exact Or.inr (by simp [collapseFrom, hx])
    · exact Or.inl (by simp [collapseFrom, hx])

theorem collapseFrom_true_of_blank (h : ∀ x ∈ blanks, x.isBlank = true) : collapseFrom true blanks = [] := by
  induction blanks with
  | nil => rfl
  | cons x blanks ih =>
    obtain ⟨hx, h⟩ := List.forall_mem_cons.mp h
    rw [collapseFrom, hx, if_pos rfl, if_pos rfl, ih h]

/-- A run of blanks leaves one space, none if it goes on. -/
theorem collapseFrom_of_blank (hne : blanks ≠ []) (h : ∀ x ∈ blanks, x.isBlank = true) (inRun : Bool) :
    collapseFrom inRun blanks = if inRun then [] else [.char ' '] := by
  obtain ⟨x, rest, rfl⟩ := List.exists_cons_of_ne_nil hne
  obtain ⟨hx, hrest⟩ := List.forall_mem_cons.mp h
  rw [collapseFrom, if_pos hx, collapseFrom_true_of_blank hrest]

theorem endsBlank_of_blank (hne : blanks ≠ []) (h : ∀ x ∈ blanks, x.isBlank = true) :
    endsBlank inRun blanks = true := by
  induction blanks generalizing inRun with
  | nil => exact absurd rfl hne
  | cons x blanks ih =>
    obtain ⟨hx, h⟩ := List.forall_mem_cons.mp h
    rw [endsBlank]
    by_cases hnil : blanks = []
    · rw [hnil, endsBlank, hx]
    · exact ih hnil h

/-- Blanks at the start leave one space at most. -/
theorem collapseFrom_blanks_append (h : ∀ x ∈ blanks, x.isBlank = true) (xs : List (Item α)) :
    collapseFrom false (blanks ++ xs) = collapseFrom false xs ∨
      collapseFrom false (blanks ++ xs) = .char ' ' :: collapseFrom false xs := by
  by_cases hnil : blanks = []
  · exact Or.inl (by rw [hnil, List.nil_append])
  · rw [collapseFrom_append, endsBlank_of_blank hnil h, collapseFrom_of_blank hnil h, if_neg Bool.false_ne_true,
      List.singleton_append]
    rcases collapseFrom_false xs with hsame | hspace
    · exact Or.inr (by rw [hsame])
    · exact Or.inl hspace.symm

/-- Blanks at the end leave one space at most. -/
theorem collapseFrom_append_blanks (h : ∀ x ∈ blanks, x.isBlank = true) (xs : List (Item α)) :
    collapseFrom false (xs ++ blanks) = collapseFrom false xs ∨
      collapseFrom false (xs ++ blanks) = collapseFrom false xs ++ [.char ' '] := by
  by_cases hnil : blanks = []
  · exact Or.inl (by rw [hnil, List.append_nil])
  · rw [collapseFrom_append, collapseFrom_of_blank hnil h]
    cases endsBlank false xs with
    | true => exact Or.inl (List.append_nil _)
    | false => exact Or.inr rfl

/-- It does not matter which blanks a run is made of. -/
theorem collapseFrom_run {blanks' : List (Item α)} (hne : blanks ≠ []) (h : ∀ x ∈ blanks, x.isBlank = true)
    (hne' : blanks' ≠ []) (h' : ∀ x ∈ blanks', x.isBlank = true) (xs ys : List (Item α)) :
    collapseFrom inRun (xs ++ blanks ++ ys) = collapseFrom inRun (xs ++ blanks' ++ ys) := by
  simp only [List.append_assoc, collapseFrom_append, collapseFrom_of_blank hne h, collapseFrom_of_blank hne' h',
    endsBlank_of_blank hne h, endsBlank_of_blank hne' h']

/-- Items that end with a blank are collapsed to items that end with a space. -/
theorem exists_of_endsBlank (h : endsBlank inRun xs = true) :
    (inRun = true ∧ collapseFrom inRun xs = []) ∨ ∃ init, collapseFrom inRun xs = init ++ [.char ' '] := by
  induction xs generalizing inRun with
  | nil => exact Or.inl ⟨h, rfl⟩
  | cons x xs ih =>
    rw [endsBlank] at h
    rw [collapseFrom]
    cases hx : x.isBlank with
    | false =>
      rw [hx] at h
      rcases ih h with ⟨hfalse, -⟩ | ⟨init, hinit⟩
      · cases hfalse
      · exact Or.inr ⟨x :: init, by rw [hinit, if_neg Bool.false_ne_true, List.cons_append]⟩
    | true =>
      rw [hx] at h
      rcases ih h with ⟨-, hnil⟩ | ⟨init, hinit⟩
      · cases inRun with
        | true => exact Or.inl ⟨rfl, hnil⟩
        | false => exact Or.inr ⟨[], by simp [hnil]⟩
      · cases inRun with
        | true => exact Or.inr ⟨init, hinit⟩
        | false => exact Or.inr ⟨.char ' ' :: init, by simp [hinit]⟩

/-- **Blanks leave one space** at the end of what comes before them, and what comes after them is in their run. -/
theorem exists_collapseFrom_append (xs : List (Item α)) (hne : blanks ≠ [])
    (hblanks : ∀ x ∈ blanks, x.isBlank = true) :
    ∃ init, (collapseFrom false xs = init ∨ collapseFrom false xs = init ++ [.char ' ']) ∧
      ∀ ys, collapseFrom false (xs ++ blanks ++ ys) = init ++ [.char ' '] ++ collapseFrom true ys := by
  have hends : ∀ inRun, endsBlank inRun blanks = true := fun _ => endsBlank_of_blank hne hblanks
  have hrun := collapseFrom_true_of_blank hblanks
  have hjoin : ∀ ys, collapseFrom false (xs ++ blanks ++ ys) =
      collapseFrom false xs ++ collapseFrom (endsBlank false xs) blanks ++ collapseFrom true ys := by
    intro ys
    rw [List.append_assoc, collapseFrom_append, collapseFrom_append, hends, List.append_assoc]
  cases hxs : endsBlank false xs with
  | false =>
    have hspace : collapseFrom false blanks = [.char ' '] := collapseFrom_of_blank hne hblanks false
    exact ⟨_, Or.inl rfl, fun ys => by rw [hjoin, hxs, hspace]⟩
  | true =>
    obtain ⟨hfalse, -⟩ | ⟨init, hinit⟩ := exists_of_endsBlank hxs
    · cases hfalse
    · exact ⟨init, Or.inr hinit, fun ys => by rw [hjoin, hxs, hrun, hinit, List.append_nil]⟩

end Item

end CallExpr

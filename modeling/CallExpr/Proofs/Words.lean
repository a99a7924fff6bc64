import CallExpr.Proofs.Scanning

/-!
# Words between blanks

Collapsing keeps the words of a text, and whether a blank stands at either end. It looks at nothing else.

* `Text.words`, `Text.startsBlank`, `Text.endsBlank`: the maximal runs of characters that are no blanks, and the two
  ends. Collapsing changes none of the three (`Text.words_collapseFrom`, `Text.startsBlank_collapseFrom`,
  `Text.endsBlank_collapseFrom`).
* `Text.layOut`: words with single spaces. It is what collapsing gives (`Text.collapseFrom_eq_layOut`).
* `Text.collapseFrom_collapseFrom_append`, `Text.collapseFrom_append_collapseFrom`: a part may be collapsed before the
  whole is.
* `Text.collapse_canonical`: of the texts with the same words and the same ends collapsing chooses one.
-/

namespace CallExpr.Text

variable {cs piece rest : List Char} {c : Char} {inRun : Bool}

/-- The maximal runs of characters that are no blanks. -/
def words (cs : List Char) : List (List Char) :=
  (cs.splitOnP isBlank).filter fun w => !w.isEmpty

def startsBlank (cs : List Char) : Bool :=
  cs.head?.elim false isBlank

def endsBlank (cs : List Char) : Bool :=
  cs.getLast?.elim false isBlank

/-! ## Words and ends -/

theorem words_of_not_blank (h : ∀ c ∈ piece, isBlank c = false) :
    words piece = if piece.isEmpty then [] else [piece] := by
  rw [words, List.splitOnP_eq_singleton h]
  cases piece <;> rfl

/-- A blank separates the words before it from those after it. -/
theorem words_append_cons (hc : isBlank c = true) (xs ys : List Char) :
    words (xs ++ c :: ys) = words xs ++ words ys := by
  rw [words, List.splitOnP_append_cons xs ys hc, List.filter_append, words, words]

/-- Without words there are only blanks. -/
theorem isBlank_of_words_eq_nil (h : words cs = []) : ∀ c ∈ cs, isBlank c = true := by
  intro c hc
  by_contra hblank
  obtain ⟨piece, hpiece, hmem⟩ := exists_mem_splitOnP hc (by simpa using hblank)
  have hword : piece ∈ words cs := List.mem_filter.mpr ⟨hpiece, by simpa using List.ne_nil_of_mem hmem⟩
  rw [h] at hword
  cases hword

theorem startsBlank_cons (c : Char) (cs : List Char) : startsBlank (c :: cs) = isBlank c := rfl

theorem ends_of_not_blank (h : ∀ c ∈ piece, isBlank c = false) :
    startsBlank piece = false ∧ endsBlank piece = false := by
  constructor
  · cases piece with
    | nil => rfl
    | cons c piece => exact h c List.mem_cons_self
  · cases hlast : piece.getLast? with
    | none => rw [endsBlank, hlast, Option.elim]
    | some c =>
      rw [endsBlank, hlast]
      exact h c (List.mem_of_getLast? hlast)

theorem elim_getLast?_cons {β : Type} (b : β) (f : Char → β) (c : Char) (cs : List Char) :
    (c :: cs).getLast?.elim b f = cs.getLast?.elim (f c) f := by
  rw [List.getLast?_cons]
  cases cs.getLast? <;> rfl

/-- Characters that go on behind a blank end with one if there are no more words, or if the last of them is a blank. -/
theorem endsBlank_append_cons (hc : isBlank c = true) (xs ys : List Char) :
    endsBlank (xs ++ c :: ys) = ((words ys).isEmpty || endsBlank ys) := by
  have hlast : endsBlank (xs ++ c :: ys) = ys.getLast?.elim true isBlank := by
    rw [endsBlank, List.getLast?_append_of_ne_nil _ (List.cons_ne_nil c ys), List.getLast?_cons, ← hc]
    cases ys.getLast? <;> rfl
  rw [hlast, endsBlank]
  cases hys : ys.getLast? with
  | none =>
    rw [List.getLast?_eq_none_iff.mp hys]
    rfl
  | some x =>
    cases hwords : (words ys).isEmpty with
    | false => rfl
    | true =>
      have hx : isBlank x = true :=
        isBlank_of_words_eq_nil (List.isEmpty_iff.mp hwords) x (List.mem_of_getLast? hys)
      simp [hx]

/-! ## What collapsing keeps -/

/-- Characters up to a blank stay as they are. -/
theorem collapseFrom_append_of_not_blank (h : ∀ c ∈ piece, isBlank c = false) (inRun : Bool) (xs : List Char) :
    collapseFrom inRun (piece ++ xs) = piece ++ collapseFrom (inRun && piece.isEmpty) xs := by
  induction piece generalizing inRun with
  | nil => simp
  | cons c piece ih =>
    obtain ⟨hc, h⟩ := List.forall_mem_cons.mp h
    rw [List.cons_append, collapseFrom, hc, if_neg Bool.false_ne_true, ih h]
    simp

theorem collapseFrom_of_not_blank (h : ∀ c ∈ piece, isBlank c = false) (inRun : Bool) :
    collapseFrom inRun piece = piece := by
  have hpiece := collapseFrom_append_of_not_blank h inRun []
  rw [List.append_nil] at hpiece
  rw [hpiece]
  cases inRun && piece.isEmpty <;> exact List.append_nil piece

theorem words_collapseFrom (inRun : Bool) (cs : List Char) : words (collapseFrom inRun cs) = words cs := by
  induction cs using splitOnP_induction (p := isBlank) generalizing inRun with
  | one piece hpiece => rw [collapseFrom_of_not_blank hpiece]
  | cons piece x rest hpiece hx ih =>
    rw [collapseFrom_append_of_not_blank hpiece, collapseFrom, if_pos hx, words_append_cons hx]
    split
    · next hrun =>
      obtain rfl : piece = [] := by simpa using (Bool.and_eq_true_iff.mp hrun).2
      rw [List.nil_append, ih]
      rfl
    · rw [words_append_cons isBlank_space, ih]

theorem startsBlank_collapseFrom (cs : List Char) : startsBlank (collapseFrom false cs) = startsBlank cs := by
  cases cs with
  | nil => rfl
  | cons c cs =>
    rw [collapseFrom]
    split
    · next hc => simp [startsBlank, hc, isBlank_space]
    · rfl

theorem endsBlank_collapseFrom (cs : List Char) : endsBlank (collapseFrom false cs) = endsBlank cs := by
  -- A run of blanks may have begun before the characters, and then they can end in it without a space of their own.
  suffices h : ∀ inRun, (collapseFrom inRun cs).getLast?.elim inRun isBlank = cs.getLast?.elim inRun isBlank from
    h false
  intro inRun
  induction cs generalizing inRun with
  | nil => rfl
  | cons c cs ih =>
    rw [collapseFrom, elim_getLast?_cons inRun isBlank c cs]
    split
    · next hc =>
      rw [hc]
      split
      · next hrun => rw [hrun, ih]
      · rw [elim_getLast?_cons, isBlank_space, ih]
    · next hc => rw [elim_getLast?_cons, eq_false_of_ne_true hc, ih]

/-! ## What collapsing gives -/

/-- A space, or none. -/
def gap : Bool → List Char
  | true => [' ']
  | false => []

/-- Words with a space between them, and one at either end if wanted. Without words it is the space at the start. -/
def layOut (starts ends : Bool) : List (List Char) → List Char
  | [] => gap starts
  | w :: ws => gap starts ++ w ++ ws.flatMap (' ' :: ·) ++ gap ends

/-- The space at the start, apart from the rest. The end counts only if there are words. -/
theorem gap_append_layOut {ends ends' : Bool} {ws : List (List Char)} (starts : Bool)
    (h : ws ≠ [] → ends = ends') : gap starts ++ layOut false ends ws = layOut starts ends' ws := by
  cases ws with
  | nil => exact List.append_nil _
  | cons w ws =>
    rw [h (List.cons_ne_nil w ws)]
    simp [layOut, gap]

/-- A word in front of others. -/
theorem append_layOut {w : List Char} {ends : Bool} (ws : List (List Char)) :
    w ++ ' ' :: layOut false ends ws = layOut false (ws.isEmpty || ends) (w :: ws) := by
  cases ws <;> simp [layOut, gap]

/-- **Collapsing lays out the words**, and goes by nothing but them and the ends. -/
theorem collapseFrom_eq_layOut (inRun : Bool) (cs : List Char) :
    collapseFrom inRun cs = layOut (startsBlank cs && !inRun) (endsBlank cs) (words cs) := by
  induction cs using splitOnP_induction (p := isBlank) generalizing inRun with
  | one piece hpiece =>
    obtain ⟨hstarts, hends⟩ := ends_of_not_blank hpiece
    rw [collapseFrom_of_not_blank hpiece, words_of_not_blank hpiece, hstarts, hends]
    cases piece <;> simp [layOut, gap]
  | cons piece x rest hpiece hx ih =>
    rw [collapseFrom_append_of_not_blank hpiece, collapseFrom, if_pos hx, words_append_cons hx,
      endsBlank_append_cons hx, words_of_not_blank hpiece, ih true, Bool.not_true, Bool.and_false]
    cases piece with
    | nil =>
      have hends : words rest ≠ [] → endsBlank rest = ((words rest).isEmpty || endsBlank rest) := by
        intro hne
        simp [hne]
      calc
        _ = gap (!inRun) ++ layOut false (endsBlank rest) (words rest) := by cases inRun <;> rfl
        _ = layOut (!inRun) ((words rest).isEmpty || endsBlank rest) (words rest) := gap_append_layOut _ hends
        _ = _ := by rw [List.nil_append, startsBlank_cons, hx, Bool.true_and]; rfl
    | cons c piece =>
      have hstarts : startsBlank (c :: piece ++ x :: rest) = false := hpiece c List.mem_cons_self
      rw [hstarts, Bool.false_and, List.isEmpty_cons, Bool.and_false, if_neg Bool.false_ne_true,
        if_neg Bool.false_ne_true]
      exact append_layOut (words rest)

/-! ## Parts that are collapsed first -/

/-- The first part may be collapsed before the whole is. -/
theorem collapseFrom_collapseFrom_append {before : Bool} (h : before = true → inRun = true) (xs ys : List Char) :
    collapseFrom inRun (collapseFrom before xs ++ ys) = collapseFrom inRun (xs ++ ys) := by
  induction xs generalizing inRun before with
  | nil => rfl
  | cons c xs ih =>
    have hmore : ∀ inRun, collapseFrom inRun (collapseFrom inRun xs ++ ys) = collapseFrom inRun (xs ++ ys) :=
      fun _ => ih id
    cases hc : isBlank c with
    | false => simp [collapseFrom, hc, hmore]
    | true =>
      cases before with
      | true => simp [collapseFrom, hc, h rfl, hmore]
      | false => cases inRun <;> simp [collapseFrom, hc, isBlank_space, hmore]

/-- The last part may be collapsed before the whole is. -/
theorem collapseFrom_append_collapseFrom (inRun : Bool) (xs ys : List Char) :
    collapseFrom inRun (xs ++ collapseFrom false ys) = collapseFrom inRun (xs ++ ys) := by
  induction xs generalizing inRun with
  | nil =>
    have hfalse : false = true → inRun = true := fun h => absurd h Bool.false_ne_true
    simpa using collapseFrom_collapseFrom_append hfalse ys []
  | cons c xs ih => simp only [List.cons_append, collapseFrom, ih]

/-- **Collapsing chooses one text of each kind.** It leaves no blanks but single spaces. A second time it changes
nothing, also if it was done in parts. Two texts are collapsed to the same just if they have the same words, and both
or neither begin, and end, with a blank. -/
theorem collapse_canonical (a b : String) :
    ((∀ c ∈ (collapse a).toList, isBlank c = true → c = ' ') ∧ ¬ [' ', ' '] <:+: (collapse a).toList) ∧
    collapse (collapse a) = collapse a ∧
    collapse (a ++ b) = collapse (collapse a ++ collapse b) ∧
    (collapse a = collapse b ↔ words a.toList = words b.toList ∧ startsBlank a.toList = startsBlank b.toList ∧
      endsBlank a.toList = endsBlank b.toList) := by
  obtain ⟨hcollapsed, -⟩ := collapsed_collapseFrom false a.toList
  have hparts : collapse (a ++ b) = collapse (collapse a ++ collapse b) := by
    simp only [collapse, String.toList_append, String.toList_ofList]
    rw [collapseFrom_append_collapseFrom, collapseFrom_collapseFrom_append id]
  refine ⟨?_, ?_, hparts, ?_, ?_⟩
  · rw [collapse, String.toList_ofList]
    exact ⟨hcollapsed.blank, hcollapsed.not_infix⟩
  · have htwice := collapseFrom_append_collapseFrom false [] a.toList
    rw [List.nil_append, List.nil_append] at htwice
    rw [collapse, collapse, String.toList_ofList, htwice]
  · intro h
    have hlist : collapseFrom false a.toList = collapseFrom false b.toList := String.ofList_injective h
    rw [← words_collapseFrom false a.toList, ← startsBlank_collapseFrom a.toList, ← endsBlank_collapseFrom a.toList,
      hlist, words_collapseFrom, startsBlank_collapseFrom, endsBlank_collapseFrom]
    exact ⟨rfl, rfl, rfl⟩
  · rintro ⟨hwords, hstarts, hends⟩
    rw [collapse, collapse, collapseFrom_eq_layOut, collapseFrom_eq_layOut, hwords, hstarts, hends]

end CallExpr.Text

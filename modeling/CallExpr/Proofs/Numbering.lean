import CallExpr.Proofs.Unfolding

/-!
# The numbering of a forest

The order in which the entries of given terms are issued, said by recursion on the terms.

* `Store.insertTerm`: stores a term, its arguments before it.
* `Store.place`: stores the outermost parts of a term that have a property, from left to right.
* `Store.settle`: rounds, each of which stores the innermost calls. A round takes one off the height of the terms
  (`Store.heights_placeAll`).
* `Forest.ofTerms`: first the literals, then the calls from the inside out, at last the variables at the top level.
* `Store.Keeps`: what all of these steps keep, the terms and the number of uses of each token (`Store.keeps_place`,
  `Forest.keeps_ofTerms`).
-/

namespace CallExpr

namespace Term

def isLiteral : Term → Bool
  | literal _ => true
  | _ => false

/-- Is it a call without calls among its arguments? -/
def isInnermost : Term → Bool
  | call _ arguments => heights arguments == 0
  | _ => false

theorem heights_eq_zero_iff {ts : List Term} : heights ts = 0 ↔ ∀ t ∈ ts, t.height = 0 := by
  induction ts with
  | nil => simp [heights]
  | cons t ts ih => simp [heights, ih]

end Term

namespace Store

mutual

/-- Stores a term, its arguments before it. -/
def insertTerm (s : Store) : Term → Store × Token
  | .missing t => (s, t)
  | .literal content => s.insert (.literal content)
  | .variable name => s.insert (.variable name)
  | .call name arguments => (s.insertTerms arguments).1.insert (.call name (s.insertTerms arguments).2)

/-- Stores terms from left to right. -/
def insertTerms (s : Store) : List Term → Store × List Token
  | [] => (s, [])
  | t :: ts =>
    (((s.insertTerm t).1.insertTerms ts).1, (s.insertTerm t).2 :: ((s.insertTerm t).1.insertTerms ts).2)

end

/-- Stores a term and puts its token in its place. -/
def replace (s : Store) (t : Term) : Store × Term :=
  ((s.insertTerm t).1, .missing (s.insertTerm t).2)

mutual

/-- Stores the outermost parts of a term that have a property. -/
def place (p : Term → Bool) (s : Store) : Term → Store × Term
  | .call name arguments =>
    if p (.call name arguments) then s.replace (.call name arguments)
    else ((s.placeAll p arguments).1, .call name (s.placeAll p arguments).2)
  | .missing t => if p (.missing t) then s.replace (.missing t) else (s, .missing t)
  | .literal content => if p (.literal content) then s.replace (.literal content) else (s, .literal content)
  | .variable name => if p (.variable name) then s.replace (.variable name) else (s, .variable name)

def placeAll (p : Term → Bool) (s : Store) : List Term → Store × List Term
  | [] => (s, [])
  | t :: ts => (((s.place p t).1.placeAll p ts).1, (s.place p t).2 :: ((s.place p t).1.placeAll p ts).2)

end

/-- Stores the innermost calls, so many times. -/
def settle : (rounds : Nat) → Store → List Term → Store × List Term
  | 0, s, ts => (s, ts)
  | rounds + 1, s, ts => settle rounds (s.placeAll Term.isInnermost ts).1 (s.placeAll Term.isInnermost ts).2

end Store

/-- The forest of terms: their literals, then their calls from the inside out, at last what is left of the terms. -/
def Forest.ofTerms (terms : List Term) : Forest :=
  let (s, ts) := Store.empty.placeAll Term.isLiteral terms
  let (s, ts) := Store.settle (Term.heights terms) s ts
  let (s, roots) := s.insertTerms ts
  ⟨s, roots⟩

namespace Store

variable {p : Term → Bool} {s s' s'' : Store} {t : Term} {ts us : List Term}

/-! ## Steps of the numbering -/

theorem place_of_pos (h : p t = true) : s.place p t = s.replace t := by
  cases t <;> simp [place, h]

theorem place_call_of_neg {name : String} (h : p (.call name ts) = false) :
    s.place p (.call name ts) = ((s.placeAll p ts).1, .call name (s.placeAll p ts).2) := by
  simp [place, h]

/-- A term without calls is stored or stays. -/
theorem place_of_neg (h : p t = false) (hcall : ∀ name arguments, t ≠ .call name arguments) : s.place p t = (s, t) := by
  cases t with
  | call name arguments => exact absurd rfl (hcall name arguments)
  | _ => simp [place, h]

theorem placeAll_append (p : Term → Bool) (s : Store) (ts us : List Term) : s.placeAll p (ts ++ us) =
    (((s.placeAll p ts).1.placeAll p us).1, (s.placeAll p ts).2 ++ ((s.placeAll p ts).1.placeAll p us).2) := by
  induction ts generalizing s with
  | nil => rfl
  | cons t ts ih => simp only [List.cons_append, placeAll, ih]

/-! ## Heights -/

mutual

theorem height_place_isLiteral (s : Store) : ∀ t : Term, (s.place Term.isLiteral t).2.height = t.height
  | .missing _ => rfl
  | .literal _ => rfl
  | .variable _ => rfl
  | .call _ arguments => congrArg (· + 1) (heights_placeAll_isLiteral s arguments)

/-- Storing the literals keeps the heights. -/
theorem heights_placeAll_isLiteral (s : Store) :
    ∀ ts : List Term, Term.heights (s.placeAll Term.isLiteral ts).2 = Term.heights ts
  | [] => rfl
  | t :: ts => by
    rw [placeAll, Term.heights, height_place_isLiteral s t, heights_placeAll_isLiteral _ ts, Term.heights]

end

mutual

theorem height_place (s : Store) : ∀ t : Term, (s.place Term.isInnermost t).2.height = t.height - 1
  | .missing _ => rfl
  | .literal _ => rfl
  | .variable _ => rfl
  | .call name arguments => by
    by_cases h : Term.heights arguments = 0
    · rw [place_of_pos (by simp [Term.isInnermost, h]), Term.height, h]
      rfl
    · rw [place_call_of_neg (by simp [Term.isInnermost, h]), Term.height, heights_placeAll s arguments, Term.height]
      omega

/-- **A round takes one off the height.** -/
theorem heights_placeAll (s : Store) :
    ∀ ts : List Term, Term.heights (s.placeAll Term.isInnermost ts).2 = Term.heights ts - 1
  | [] => rfl
  | t :: ts => by
    rw [placeAll, Term.heights, height_place s t, heights_placeAll _ ts, Term.heights]
    omega

end

/-! ## What the steps keep -/

/-- How often the entries of the store refer to a token. -/
def uses (s : Store) (u : Token) : Nat :=
  s.references.count u

/-- One for a token that was issued, zero for others. -/
def issued (s : Store) (u : Token) : Nat :=
  if u.index < s.size then 1 else 0

/-- The tokens of the terms have entries. -/
def Holds (s : Store) (ts : List Term) : Prop :=
  ∀ u ∈ Term.tokensAll ts, u.index < s.size

/-- From the terms `ts` over `s` to `us` over `s'`: the same terms after filling in, the same balance of uses. -/
structure Keeps (s : Store) (ts : List Term) (s' : Store) (us : List Term) : Prop where
  ordered : s'.Ordered
  grows : s.Grows s'
  holds : s'.Holds us
  fill : Term.fillAll s'.termAt us = Term.fillAll s.termAt ts
  /-- Each token that is issued is used once more, in the terms or in the store. -/
  balance : ∀ u, (Term.tokensAll us).count u + s'.uses u + s.issued u =
    (Term.tokensAll ts).count u + s.uses u + s'.issued u

theorem Holds.append (h : s.Holds (ts ++ us)) : s.Holds ts ∧ s.Holds us := by
  rw [Holds, Term.tokensAll_append] at h
  exact ⟨fun u hu => h u (List.mem_append_left _ hu), fun u hu => h u (List.mem_append_right _ hu)⟩

theorem Holds.grows (h : s.Holds ts) (hgrows : s.Grows s') : s'.Holds ts :=
  fun u hu => Nat.lt_of_lt_of_le (h u hu) hgrows.size_le

theorem fillAll_of_grows (hs : s.Ordered) (hs' : s'.Ordered) (hgrows : s.Grows s') (h : s.Holds ts) :
    Term.fillAll s'.termAt ts = Term.fillAll s.termAt ts :=
  Term.fillAll_congr fun u hu => termAt_of_grows hs hs' hgrows (h u hu)

namespace Keeps

theorem refl (hs : s.Ordered) (h : s.Holds ts) : Keeps s ts s ts :=
  ⟨hs, .refl s, h, rfl, fun _ => rfl⟩

theorem trans {vs : List Term} (h : Keeps s ts s' us) (h' : Keeps s' us s'' vs) : Keeps s ts s'' vs where
  ordered := h'.ordered
  grows := h.grows.trans h'.grows
  holds := h'.holds
  fill := h'.fill.trans h.fill
  balance u := by
    have := h.balance u
    have := h'.balance u
    omega

/-- A step on the left part of a list, then one on the right part. -/
theorem append {ts' us' : List Term} (h : Keeps s ts s' ts') (h' : Keeps s' us s'' us') (hs : s.Ordered)
    (hus : s.Holds us) : Keeps s (ts ++ us) s'' (ts' ++ us') where
  ordered := h'.ordered
  grows := h.grows.trans h'.grows
  holds := by
    rw [Holds, Term.tokensAll_append]
    intro u hu
    rcases List.mem_append.mp hu with hu | hu
    · exact h.holds.grows h'.grows u hu
    · exact h'.holds u hu
  fill := by
    rw [Term.fillAll_append, Term.fillAll_append, fillAll_of_grows h.ordered h'.ordered h'.grows h.holds, h.fill,
      h'.fill, fillAll_of_grows hs h.ordered h.grows hus]
  balance u := by
    have := h.balance u
    have := h'.balance u
    simp only [Term.tokensAll_append, List.count_append]
    omega

/-- A step on the arguments of a call. -/
theorem call (name : String) (h : Keeps s ts s' us) : Keeps s [.call name ts] s' [.call name us] where
  ordered := h.ordered
  grows := h.grows
  holds := by simpa [Holds, Term.tokensAll, Term.tokens] using h.holds
  fill := by simp [Term.fillAll, Term.fill, h.fill]
  balance u := by simpa [Term.tokensAll, Term.tokens] using h.balance u

end Keeps

/-! ## Every step keeps the terms -/

theorem references_insert (s : Store) (e : Entry) : (s.insert e).1.references = s.references ++ e.arguments := by
  simp [references]

theorem issued_insert (s : Store) (e : Entry) (u : Token) :
    (s.insert e).1.issued u = [(s.insert e).2].count u + s.issued u := by
  obtain ⟨i⟩ := u
  simp only [issued, size_insert, List.count_singleton, beq_iff_eq, Token.mk.injEq,
    show (s.insert e).2 = ⟨s.size⟩ from rfl]
  split <;> split <;> split <;> omega

theorem fill_term_missing (f : Token → Term) (e : Entry) : Term.fill f (e.term .missing) = e.term f := by
  cases e with
  | literal content => rfl
  | «variable» name => rfl
  | call name arguments =>
    simp only [Entry.term, Term.fill, Term.fillAll_eq_map, List.map_map, Term.call.injEq, true_and]
    rfl

theorem tokens_term_missing (e : Entry) : Term.tokens (e.term .missing) = e.arguments := by
  cases e with
  | literal content => rfl
  | «variable» name => rfl
  | call name arguments => exact Term.tokensAll_map_missing arguments

/-- One more entry. -/
theorem keeps_insert (hs : s.Ordered) {e : Entry} (he : ∀ u ∈ e.arguments, u.index < s.size) :
    Keeps s [e.term .missing] (s.insert e).1 [.missing (s.insert e).2] where
  ordered := hs.insert he
  grows := grows_insert s e
  holds := by
    intro u hu
    obtain rfl : u = (s.insert e).2 := by simpa [Term.tokensAll, Term.tokens] using hu
    rw [size_insert, insert_index]
    exact Nat.lt_succ_self _
  fill := by
    simp only [Term.fillAll, Term.fill, fill_term_missing, (hs.insert he).termAt_eq (get?_insert_self s e)]
    rw [Entry.term_congr fun u hu => termAt_of_grows hs (hs.insert he) (grows_insert s e) (he u hu)]
  balance u := by
    simp only [Term.tokensAll, Term.tokens, tokens_term_missing, List.append_nil, uses, references_insert,
      List.count_append, issued_insert]
    omega

mutual

/-- Storing a term keeps it. -/
theorem keeps_insertTerm : ∀ {s : Store} {t : Term}, s.Ordered → s.Holds [t] →
    Keeps s [t] (s.insertTerm t).1 [.missing (s.insertTerm t).2]
  | _, .missing _, hs, h => .refl hs h
  | _, .literal content, hs, _ => keeps_insert (e := .literal content) hs (by simp [Entry.arguments])
  | _, .variable name, hs, _ => keeps_insert (e := .variable name) hs (by simp [Entry.arguments])
  | s, .call name arguments, hs, h => by
    have h : s.Holds arguments := by simpa [Holds, Term.tokensAll, Term.tokens] using h
    have hargs := keeps_insertTerms hs h
    have hlt := hargs.holds
    rw [Holds, Term.tokensAll_map_missing] at hlt
    exact (hargs.call name).trans (keeps_insert (e := .call name _) hargs.ordered hlt)

theorem keeps_insertTerms : ∀ {s : Store} {ts : List Term}, s.Ordered → s.Holds ts →
    Keeps s ts (s.insertTerms ts).1 ((s.insertTerms ts).2.map .missing)
  | _, [], hs, h => .refl hs h
  | s, t :: ts, hs, h => by
    have h : s.Holds ([t] ++ ts) := h
    obtain ⟨ht, hts⟩ := h.append
    have hfirst := keeps_insertTerm hs ht
    exact hfirst.append (keeps_insertTerms hfirst.ordered (hts.grows hfirst.grows)) hs hts

end

mutual

theorem keeps_place (p : Term → Bool) : ∀ {s : Store} {t : Term}, s.Ordered → s.Holds [t] →
    Keeps s [t] (s.place p t).1 [(s.place p t).2]
  | s, t, hs, h => by
    by_cases hp : p t = true
    · rw [place_of_pos hp]
      exact keeps_insertTerm hs h
    · have hp : p t = false := by simpa using hp
      cases t with
      | call name arguments =>
        rw [place_call_of_neg hp]
        have h : s.Holds arguments := by simpa [Holds, Term.tokensAll, Term.tokens] using h
        exact (keeps_placeAll p hs h).call name
      | _ =>
        rw [place_of_neg hp (by simp)]
        exact .refl hs h

/-- Storing parts of terms keeps the terms. -/
theorem keeps_placeAll (p : Term → Bool) : ∀ {s : Store} {ts : List Term}, s.Ordered → s.Holds ts →
    Keeps s ts (s.placeAll p ts).1 (s.placeAll p ts).2
  | _, [], hs, h => .refl hs h
  | s, t :: ts, hs, h => by
    have h : s.Holds ([t] ++ ts) := h
    obtain ⟨ht, hts⟩ := h.append
    have hfirst := keeps_place p hs ht
    exact hfirst.append (keeps_placeAll p hfirst.ordered (hts.grows hfirst.grows)) hs hts

end

theorem keeps_settle (rounds : Nat) (hs : s.Ordered) (h : s.Holds ts) :
    Keeps s ts (settle rounds s ts).1 (settle rounds s ts).2 := by
  induction rounds generalizing s ts with
  | zero => exact .refl hs h
  | succ rounds ih =>
    have hround := keeps_placeAll Term.isInnermost hs h
    exact hround.trans (ih hround.ordered hround.holds)

end Store

namespace Forest

variable {terms : List Term}

/-- **The numbering keeps the terms.** -/
theorem keeps_ofTerms (h : Term.tokensAll terms = []) :
    Store.Keeps .empty terms (ofTerms terms).store ((ofTerms terms).roots.map .missing) := by
  have hholds : Store.empty.Holds terms := by simp [Store.Holds, h]
  have hliterals := Store.keeps_placeAll Term.isLiteral Store.ordered_empty hholds
  have hcalls := Store.keeps_settle (Term.heights terms) hliterals.ordered hliterals.holds
  exact (hliterals.trans hcalls).trans (Store.keeps_insertTerms hcalls.ordered hcalls.holds)

/-- The roots of the forest of terms stand for the terms. -/
theorem map_termAt_roots (h : Term.tokensAll terms = []) :
    (ofTerms terms).roots.map (ofTerms terms).store.termAt = terms := by
  have hfill := (keeps_ofTerms h).fill
  rw [Term.fillAll_of_tokensAll h, Term.fillAll_eq_map, List.map_map] at hfill
  exact hfill

theorem unfolds_ofTerms (h : Term.tokensAll terms = []) : (ofTerms terms).Unfolds terms := by
  have hkeeps := keeps_ofTerms h
  have hroots := hkeeps.holds
  rw [Store.Holds, Term.tokensAll_map_missing] at hroots
  have hunfolds := unfolds_map_termAt hkeeps.ordered hroots
  rwa [map_termAt_roots h] at hunfolds

end Forest

end CallExpr

import CallExpr.Proofs.Numbering
import CallExpr.Proofs.Postorder

/-!
# The rounds of the numbering

All steps of the numbering are looked at from the store `S` at the end.

* `Store.Remains S k`: what is left of a term after `k` rounds. Its tokens stand for calls of height `k` or less, and
  each call in it is `k` levels higher than it looks.
* `Store.Words`: words are stored among terms that have no calls (`Store.words_insertTerms`).
* `Store.Round`: the step of one round. The tokens from before stay in their order, and those that are issued are the
  calls of height `k + 1` from left to right, each after its own variables (`Store.round_placeAll`).
* `Store.Layered`: rounds one after the other. Each issues the calls of one height (`Store.layered_settle`), in one of
  the `Store.batches`.
-/

namespace CallExpr

namespace Store

variable {S s s' s'' : Store} {k : Nat} {t : Term} {ts us : List Term} {p : Term → Bool}

/-! ## Every step adds entries -/

mutual

theorem grows_insertTerm (s : Store) : ∀ t : Term, s.Grows (s.insertTerm t).1
  | .missing _ => .refl s
  | .literal content => grows_insert s (.literal content)
  | .variable name => grows_insert s (.variable name)
  | .call _ arguments => (grows_insertTerms s arguments).trans (grows_insert _ _)

theorem grows_insertTerms (s : Store) : ∀ ts : List Term, s.Grows (s.insertTerms ts).1
  | [] => .refl s
  | t :: ts => (grows_insertTerm s t).trans (grows_insertTerms _ ts)

end

mutual

theorem grows_place (p : Term → Bool) (s : Store) (t : Term) : s.Grows (s.place p t).1 := by
  by_cases hp : p t = true
  · rw [place_of_pos hp]
    exact grows_insertTerm s t
  · have hp : p t = false := by simpa using hp
    cases t with
    | call name arguments =>
      rw [place_call_of_neg hp]
      exact grows_placeAll p s arguments
    | _ =>
      rw [place_of_neg hp (by simp)]
      exact .refl s

theorem grows_placeAll (p : Term → Bool) (s : Store) : ∀ ts : List Term, s.Grows (s.placeAll p ts).1
  | [] => .refl s
  | t :: ts => (grows_place p s t).trans (grows_placeAll p _ ts)

end

theorem grows_settle (rounds : Nat) (s : Store) (ts : List Term) : s.Grows (settle rounds s ts).1 := by
  induction rounds generalizing s ts with
  | zero => exact .refl s
  | succ rounds ih => exact (grows_placeAll _ s ts).trans (ih _ _)

theorem Grows.get?_insert {e : Entry} (h : (s.insert e).1.Grows S) : S.get? (s.insert e).2 = some e := by
  rw [h.get? (by rw [size_insert, insert_index]; exact Nat.lt_succ_self _), get?_insert_self]

/-! ## Tokens in terms -/

/-- The tokens in the terms, and those below them, each after its arguments. -/
def postorderOf (S : Store) (ts : List Term) : List Token :=
  (Term.tokensAll ts).flatMap S.postorder

theorem postorderOf_cons (S : Store) (t : Term) (ts : List Term) :
    S.postorderOf (t :: ts) = S.postorderOf [t] ++ S.postorderOf ts := by
  simp [postorderOf, Term.tokensAll]

theorem postorderOf_missing (S : Store) (u : Token) : S.postorderOf [.missing u] = S.postorder u := by
  simp [postorderOf, Term.tokensAll, Term.tokens]

theorem postorderOf_variable (S : Store) (name : String) : S.postorderOf [.variable name] = [] := rfl

theorem postorderOf_call (S : Store) (name : String) (arguments : List Term) :
    S.postorderOf [.call name arguments] = S.postorderOf arguments := by
  simp [postorderOf, Term.tokensAll, Term.tokens]

theorem Ordered.postorder_of_nil (hS : S.Ordered) {u : Token} (hu : S.argumentsOf u = []) : S.postorder u = [u] := by
  rw [hS.postorder_eq, hu]
  rfl

theorem not_call_of_isVariable {u : Token} (h : S.isVariable u = true) :
    S.isCall u = false ∧ S.isLiteral u = false := by
  obtain ⟨name, hget⟩ := isVariable_iff.mp h
  simp [isCall, isLiteral, hget]

mutual

/-- The token of a stored term stands for the term. -/
theorem termAt_insertTerm (hS : S.Ordered) : ∀ {s : Store} {t : Term}, (s.insertTerm t).1.Grows S →
    S.termAt (s.insertTerm t).2 = Term.fill S.termAt t
  | _, .missing _, _ => rfl
  | _, .literal _, h => hS.termAt_eq h.get?_insert
  | _, .variable _, h => hS.termAt_eq h.get?_insert
  | s, .call name arguments, h => by
    have hgrows : (s.insertTerms arguments).1.Grows S := (grows_insert _ _).trans h
    rw [insertTerm, hS.termAt_eq h.get?_insert, Entry.term, map_termAt_insertTerms hS hgrows, Term.fill]

theorem map_termAt_insertTerms (hS : S.Ordered) : ∀ {s : Store} {ts : List Term}, (s.insertTerms ts).1.Grows S →
    (s.insertTerms ts).2.map S.termAt = Term.fillAll S.termAt ts
  | _, [], _ => rfl
  | s, t :: ts, h => by
    have hrest : ((s.insertTerm t).1.insertTerms ts).1.Grows S := h
    have hgrows : (s.insertTerm t).1.Grows S := (grows_insertTerms _ ts).trans hrest
    rw [insertTerms, List.map_cons, termAt_insertTerm hS hgrows, map_termAt_insertTerms hS hrest, Term.fillAll]

end

/-! ## What is left of the terms -/

mutual

/-- What is left of a term after `k` rounds: no literals, tokens that stand for no variables and for calls of height
`k` or less, and calls from whose height `k` is missing. -/
def Remains (S : Store) (k : Nat) : Term → Prop
  | .missing u => S.isVariable u = false ∧ S.height u ≤ k
  | .literal _ => False
  | .variable _ => True
  | .call name arguments => S.RemainsAll k arguments ∧
    (Term.fill S.termAt (.call name arguments)).height = (Term.call name arguments).height + k

def RemainsAll (S : Store) (k : Nat) : List Term → Prop
  | [] => True
  | t :: ts => S.Remains k t ∧ S.RemainsAll k ts

end

/-- Words and tokens are stored: the words get the new tokens, and the others stay in their order. -/
structure Words (S s : Store) (ts : List Term) (s' : Store) (us : List Token) : Prop where
  words : us.filter S.isVariable = s.newTokens s'
  old : ∀ q : Token → Bool, (∀ u ∈ s.newTokens s', q u = false) →
    (us.flatMap S.postorder).filter q = (S.postorderOf ts).filter q
  entries : ∀ u ∈ s.newTokens s', S.isVariable u = true

theorem words_insertTerms (hS : S.Ordered) (hgrows : (s.insertTerms ts).1.Grows S) (hts : S.RemainsAll k ts)
    (hzero : Term.heights ts = 0) : Words S s ts (s.insertTerms ts).1 (s.insertTerms ts).2 := by
  induction ts generalizing s with
  | nil => exact ⟨by simp [insertTerms, newTokens_self], fun _ _ => rfl, by simp [insertTerms, newTokens_self]⟩
  | cons t ts ih =>
    obtain ⟨ht, hts⟩ := hts
    obtain ⟨hheight, hzero⟩ := Nat.max_eq_zero_iff.mp hzero
    have hwords := ih (s := (s.insertTerm t).1) hgrows hts hzero
    rw [insertTerms]
    cases t with
    | call name arguments => cases hheight
    | literal content => exact ht.elim
    | missing u =>
      refine ⟨?_, fun q hq => ?_, hwords.entries⟩
      · rw [List.filter_cons_of_neg (by rw [insertTerm, ht.1]; exact Bool.false_ne_true)]
        exact hwords.words
      · rw [List.flatMap_cons, List.filter_append, hwords.old q hq, postorderOf_cons, postorderOf_missing,
          List.filter_append]
        rfl
    | «variable» name =>
      rw [insertTerm] at hwords ⊢
      have hrest := grows_insertTerms (s.insert (.variable name)).1 ts
      have hget : S.get? (s.insert (.variable name)).2 = some (.variable name) := (hrest.trans hgrows).get?_insert
      have hnew := (grows_insert s (.variable name)).newTokens_append hrest
      rw [newTokens_insert] at hnew
      have hvariable : S.isVariable (s.insert (.variable name)).2 = true := by simp [isVariable, hget]
      refine ⟨?_, fun q hq => ?_, ?_⟩
      · rw [List.filter_cons_of_pos hvariable, hwords.words, ← hnew]
        rfl
      · rw [← hnew] at hq
        obtain ⟨hfirst, hq⟩ := List.forall_mem_cons.mp hq
        rw [List.flatMap_cons, List.filter_append, hwords.old q hq, postorderOf_cons, postorderOf_variable,
          hS.postorder_of_nil (by rw [argumentsOf, hget]; rfl), List.filter_cons_of_neg (by simp [hfirst])]
        rfl
      · rw [← hnew]
        exact List.forall_mem_cons.mpr ⟨hvariable, hwords.entries⟩

/-- The arguments of a call are stored first, then the call itself. -/
theorem newTokens_insertTerm_call (s : Store) (name : String) (ts : List Term) :
    s.newTokens (s.insertTerms ts).1 ++ [(s.insertTerm (.call name ts)).2] =
      s.newTokens (s.insertTerm (.call name ts)).1 := by
  rw [insertTerm, ← (grows_insertTerms s ts).newTokens_append (grows_insert _ _), newTokens_insert]

theorem get?_insertTerm_call {name : String} (h : (s.insertTerm (.call name ts)).1.Grows S) :
    S.get? (s.insertTerm (.call name ts)).2 = some (.call name (s.insertTerms ts).2) := by
  rw [insertTerm] at h ⊢
  exact h.get?_insert

/-! ## One round -/

/-- Round `k + 1`, from the terms `ts` over `s` to `us` over `s'`. The tokens from before stay in their order. Those
that are issued are the new calls from left to right, each after its own variables. -/
structure Round (S : Store) (k : Nat) (s : Store) (ts : List Term) (s' : Store) (us : List Term) : Prop where
  grows : s.Grows s'
  fill : Term.fillAll S.termAt us = Term.fillAll S.termAt ts
  remains : S.RemainsAll (k + 1) us
  old : ∀ q : Token → Bool, (∀ u ∈ s.newTokens s', q u = false) →
    (S.postorderOf us).filter q = (S.postorderOf ts).filter q
  new : ∀ q : Token → Bool, (∀ u ∈ s.newTokens s', q u = S.isCall u) → (S.postorderOf ts).filter q = [] →
    ((S.postorderOf us).filter q).flatMap S.numbered = s.newTokens s'
  entries : ∀ u ∈ s.newTokens s', S.isLiteral u = false ∧ (S.isCall u = true → S.height u = k + 1)

namespace Round

/-- Nothing is stored. -/
theorem stay (s : Store) (hts : S.RemainsAll (k + 1) ts) : Round S k s ts s ts where
  grows := .refl s
  fill := rfl
  remains := hts
  old _ _ := rfl
  new q _ hq := by rw [hq, newTokens_self]; rfl
  entries := by simp [newTokens_self]

/-- A round on the left part of a list, then on the right part. -/
theorem append {t' : Term} (h : Round S k s [t] s' [t']) (h' : Round S k s' ts s'' us) :
    Round S k s (t :: ts) s'' (t' :: us) where
  grows := h.grows.trans h'.grows
  fill := by
    obtain ⟨hfill, -⟩ : Term.fill S.termAt t' = Term.fill S.termAt t ∧ _ := List.cons.inj h.fill
    rw [Term.fillAll, Term.fillAll, hfill, h'.fill]
  remains := ⟨h.remains.1, h'.remains⟩
  old q hq := by
    rw [← h.grows.newTokens_append h'.grows, List.forall_mem_append] at hq
    rw [postorderOf_cons, List.filter_append, h.old q hq.1, h'.old q hq.2, ← List.filter_append, ← postorderOf_cons]
  new q hq hts := by
    rw [← h.grows.newTokens_append h'.grows, List.forall_mem_append] at hq
    rw [postorderOf_cons, List.filter_append, List.append_eq_nil_iff] at hts
    rw [postorderOf_cons, List.filter_append, List.flatMap_append, h.new q hq.1 hts.1, h'.new q hq.2 hts.2,
      h.grows.newTokens_append h'.grows]
  entries := by
    rw [← h.grows.newTokens_append h'.grows]
    exact List.forall_mem_append.mpr ⟨h.entries, h'.entries⟩

/-- A round on the arguments of a call that is not innermost. -/
theorem call {name : String} (h : Round S k s ts s' us) (hheight : Term.heights us + 1 = Term.heights ts)
    (hts : S.Remains k (.call name ts)) : Round S k s [.call name ts] s' [.call name us] where
  grows := h.grows
  fill := by simp only [Term.fillAll, Term.fill, h.fill]
  remains := by
    have hcall := hts.2
    rw [Term.fill, ← h.fill] at hcall
    refine ⟨⟨h.remains, ?_⟩, trivial⟩
    rw [Term.fill, hcall, Term.height, Term.height, ← hheight]
    omega
  old q hq := by rw [postorderOf_call, h.old q hq, postorderOf_call]
  new q hq hq' := by
    rw [postorderOf_call] at hq' ⊢
    exact h.new q hq hq'
  entries := h.entries

/-- An innermost call is stored. -/
theorem replace (hS : S.Ordered) {name : String} (hgrows : (s.insertTerm (.call name ts)).1.Grows S)
    (hts : S.Remains k (.call name ts)) (hzero : Term.heights ts = 0) :
    Round S k s [.call name ts] (s.insertTerm (.call name ts)).1 [.missing (s.insertTerm (.call name ts)).2] := by
  have hget := get?_insertTerm_call hgrows
  have hnew := newTokens_insertTerm_call s name ts
  have hterm := termAt_insertTerm hS hgrows
  have hwords : Words S s ts (s.insertTerms ts).1 (s.insertTerms ts).2 :=
    words_insertTerms hS ((grows_insert _ _).trans hgrows) hts.1 hzero
  generalize (s.insertTerm (.call name ts)).2 = c at hget hterm hnew ⊢
  have hcall : S.isCall c = true := isCall_iff.mpr ⟨name, _, hget⟩
  have hheight : S.height c = k + 1 := by
    rw [height, hterm, hts.2, Term.height, hzero]
    omega
  have hpostorder : S.postorderOf [.missing c] = (s.insertTerms ts).2.flatMap S.postorder ++ [c] := by
    rw [postorderOf_missing, hS.postorder_eq, argumentsOf_of_get? hget]
    rfl
  have hvariable : ∀ u ∈ s.newTokens (s.insertTerms ts).1, S.isCall u = false ∧ S.isLiteral u = false :=
    fun u hu => not_call_of_isVariable (hwords.entries u hu)
  refine ⟨grows_insertTerm s _, ?_, ?_, fun q hq => ?_, fun q hq hq' => ?_, ?_⟩
  · simp only [Term.fillAll, Term.fill, hterm]
  · exact ⟨⟨by simp [isVariable, hget], hheight.le⟩, trivial⟩
  · rw [← hnew, List.forall_mem_append] at hq
    have hc : [c].filter q = [] := by simp [hq.2 c List.mem_cons_self]
    rw [hpostorder, List.filter_append, hwords.old q hq.1, postorderOf_call, hc, List.append_nil]
  -- Of the new tokens only the call itself is seen, and its variables are right before it.
  · rw [← hnew, List.forall_mem_append] at hq
    have hc : q c = true := by rw [hq.2 c List.mem_cons_self, hcall]
    have hold : ((s.insertTerms ts).2.flatMap S.postorder).filter q = [] := by
      rw [hwords.old q fun u hu => by rw [hq.1 u hu, (hvariable u hu).1], ← postorderOf_call S name, hq']
    rw [hpostorder, List.filter_append, hold, List.nil_append, List.filter_cons_of_pos hc, List.filter_nil,
      List.flatMap_singleton, numbered, argumentsOf_of_get? hget, Entry.arguments, hwords.words, hnew]
  · rw [← hnew, List.forall_mem_append]
    refine ⟨fun u hu => ⟨(hvariable u hu).2, fun h => ?_⟩, ?_⟩
    · rw [(hvariable u hu).1] at h
      cases h
    · rintro u hu
      obtain rfl := List.mem_singleton.mp hu
      exact ⟨by simp [isLiteral, hget], fun _ => hheight⟩

end Round

mutual

theorem round_place (hS : S.Ordered) : ∀ {s : Store} {t : Term}, (s.place Term.isInnermost t).1.Grows S →
    S.Remains k t → Round S k s [t] (s.place Term.isInnermost t).1 [(s.place Term.isInnermost t).2]
  | s, .missing _, _, ht => .stay s ⟨⟨ht.1, Nat.le_succ_of_le ht.2⟩, trivial⟩
  | _, .literal _, _, ht => ht.elim
  | s, .variable _, _, _ => .stay s ⟨trivial, trivial⟩
  | s, .call name arguments, h, ht => by
    by_cases hzero : Term.heights arguments = 0
    · rw [place_of_pos (by simp [Term.isInnermost, hzero])] at h ⊢
      exact .replace hS h ht hzero
    · have hinnermost : Term.isInnermost (.call name arguments) = false := by simp [Term.isInnermost, hzero]
      rw [place_call_of_neg hinnermost] at h ⊢
      refine (round_placeAll hS h ht.1).call ?_ ht
      rw [heights_placeAll]
      omega

/-- **What a round does.** -/
theorem round_placeAll (hS : S.Ordered) : ∀ {s : Store} {ts : List Term}, (s.placeAll Term.isInnermost ts).1.Grows S →
    S.RemainsAll k ts → Round S k s ts (s.placeAll Term.isInnermost ts).1 (s.placeAll Term.isInnermost ts).2
  | s, [], _, _ => .stay s trivial
  | s, t :: ts, h, hts => by
    have hrest : ((s.place Term.isInnermost t).1.placeAll Term.isInnermost ts).1.Grows S := h
    have hfirst : (s.place Term.isInnermost t).1.Grows S := (grows_placeAll _ _ ts).trans hrest
    exact (round_place hS hfirst hts.1).append (round_placeAll hS hrest hts.2)

end

/-! ## All rounds -/

/-- The tokens that each round issues. -/
def batches : (rounds : Nat) → Store → List Term → List (List Token)
  | 0, _, _ => []
  | rounds + 1, s, ts => s.newTokens (s.placeAll Term.isInnermost ts).1 ::
    batches rounds (s.placeAll Term.isInnermost ts).1 (s.placeAll Term.isInnermost ts).2

/-- Does the token stand for a call of this height? -/
def isCallOfHeight (S : Store) (h : Nat) (t : Token) : Bool :=
  S.isCall t && S.height t = h

theorem flatten_batches (rounds : Nat) (s : Store) (ts : List Term) :
    (batches rounds s ts).flatten = s.newTokens (settle rounds s ts).1 := by
  induction rounds generalizing s ts with
  | zero => exact (newTokens_self s).symm
  | succ rounds ih =>
    rw [batches, List.flatten_cons, ih, settle]
    exact (grows_placeAll _ s ts).newTokens_append (grows_settle rounds _ _)

theorem heights_settle (rounds : Nat) (s : Store) (ts : List Term) :
    Term.heights (settle rounds s ts).2 = Term.heights ts - rounds := by
  induction rounds generalizing s ts with
  | zero => rfl
  | succ rounds ih =>
    rw [settle, ih, heights_placeAll]
    omega

/-- So many rounds after round `k`. Each issues the calls of one height, from left to right. -/
structure Layered (S : Store) (k rounds : Nat) (s : Store) (ts : List Term) (s' : Store) (us : List Term) : Prop where
  remains : S.RemainsAll (k + rounds) us
  old : ∀ q : Token → Bool, (∀ u ∈ s.newTokens s', q u = false) →
    (S.postorderOf us).filter q = (S.postorderOf ts).filter q
  layers : (∀ h, k < h → (S.postorderOf ts).filter (S.isCallOfHeight h) = []) →
    (List.range rounds).map (fun i => ((S.postorderOf us).filter (S.isCallOfHeight (k + i + 1))).flatMap S.numbered) =
      batches rounds s ts
  entries : ∀ u ∈ s.newTokens s', S.isLiteral u = false ∧ (S.isCall u = true → k < S.height u)

theorem isCallOfHeight_eq_false {h : Nat} {u : Token} (hu : S.isCall u = true → S.height u ≠ h) :
    S.isCallOfHeight h u = false := by
  rw [isCallOfHeight, Bool.and_eq_false_imp]
  exact fun hcall => decide_eq_false (hu hcall)

/-- **What the rounds do.** -/
theorem layered_settle (hS : S.Ordered) (rounds : Nat) (hgrows : (settle rounds s ts).1.Grows S)
    (hts : S.RemainsAll k ts) : Layered S k rounds s ts (settle rounds s ts).1 (settle rounds s ts).2 := by
  induction rounds generalizing k s ts with
  | zero => exact ⟨hts, fun _ _ => rfl, fun _ => rfl, by simp [settle, newTokens_self]⟩
  | succ rounds ih =>
    rw [settle] at hgrows ⊢
    have hround := round_placeAll hS ((grows_settle rounds _ _).trans hgrows) hts
    have hrest := ih hgrows hround.remains
    have hnew := hround.grows.newTokens_append
      (grows_settle rounds (s.placeAll Term.isInnermost ts).1 (s.placeAll Term.isInnermost ts).2)
    have hbatches : batches (rounds + 1) s ts = s.newTokens (s.placeAll Term.isInnermost ts).1 ::
      batches rounds (s.placeAll Term.isInnermost ts).1 (s.placeAll Term.isInnermost ts).2 := rfl
    generalize s.placeAll Term.isInnermost ts = r at hround hrest hnew hbatches ⊢
    generalize settle rounds r.1 r.2 = r' at hrest hnew ⊢
    refine ⟨?_, fun q hq => ?_, fun hcalls => ?_, ?_⟩
    · rw [show k + (rounds + 1) = k + 1 + rounds by omega]
      exact hrest.remains
    · rw [← hnew, List.forall_mem_append] at hq
      rw [hrest.old q hq.2, hround.old q hq.1]
    -- Calls above the next height come later, and the rounds after this one issue only calls above it.
    · have hlater : ∀ h, k + 1 < h → (S.postorderOf r.2).filter (S.isCallOfHeight h) = [] := by
        intro h hlt
        rw [hround.old _ fun u hu => isCallOfHeight_eq_false fun hcall => ?_, hcalls h (by omega)]
        rw [(hround.entries u hu).2 hcall]
        omega
      have hfirst : ((S.postorderOf r'.2).filter (S.isCallOfHeight (k + 1))).flatMap S.numbered = s.newTokens r.1 := by
        rw [hrest.old _ fun u hu => isCallOfHeight_eq_false fun hcall => ?_,
          hround.new _ (fun u hu => ?_) (hcalls _ (Nat.lt_succ_self k))]
        · rw [isCallOfHeight, Bool.and_eq_left_iff_imp]
          exact fun hcall => decide_eq_true ((hround.entries u hu).2 hcall)
        · exact (Nat.ne_of_lt ((hrest.entries u hu).2 hcall)).symm
      rw [hbatches, List.range_succ_eq_map, List.map_cons, List.map_map, Nat.add_zero, hfirst, ← hrest.layers hlater]
      refine congrArg (_ :: ·) (List.map_congr_left fun i _ => ?_)
      rw [Function.comp_apply, show k + i.succ + 1 = k + 1 + i + 1 by omega]
    · rw [← hnew, List.forall_mem_append]
      refine ⟨fun u hu => (hround.entries u hu).imp_right fun h hcall => ?_, fun u hu =>
        (hrest.entries u hu).imp_right fun h hcall => Nat.lt_of_succ_lt (h hcall)⟩
      rw [h hcall]
      exact Nat.lt_succ_self k

end Store

end CallExpr

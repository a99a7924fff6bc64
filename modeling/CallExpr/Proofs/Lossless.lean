import CallExpr.Proofs.Lexemes

/-!
# Scanning loses nothing

A source is text up to its first quote, then a literal up to the next quote, and so on.

* `quoted_induction`: induction on a source, from quote to quote.
* `Lexeme.scanFrom`: the lexemes of characters that start at some byte, with one equation for each case.
* `Lexeme.WellFormed`: no empty text, no quotes, and no two texts side by side.
* `Lexeme.even_of_scanFrom`, `Lexeme.scanFrom_of_odd`: a source with an odd number of quotes has no lexemes, and its
  last quote is the error.
* `Lexeme.scan_eq_ok_iff`: the lexemes of a source are the well-formed lexemes that make it up.
-/

namespace CallExpr

section Quotes

variable {cs content rest : List Char}

/-- **Induction on a source**, from quote to quote. -/
theorem quoted_induction {motive : List Char → Prop}
    (text : ∀ cs, quoteMark ∉ cs → motive cs)
    (unclosed : ∀ cs content, quoteMark ∉ cs → quoteMark ∉ content → motive (cs ++ quoteMark :: content))
    (literal : ∀ cs content rest, quoteMark ∉ cs → quoteMark ∉ content → motive rest →
      motive (cs ++ quoteMark :: (content ++ quoteMark :: rest))) (cs : List Char) : motive cs := by
  -- What follows the second quote is shorter.
  suffices h : ∀ n (cs : List Char), cs.length ≤ n → motive cs from h _ cs Nat.le.refl
  intro n
  induction n with
  | zero =>
    intro cs hcs
    obtain rfl : cs = [] := List.eq_nil_of_length_eq_zero (Nat.le_zero.mp hcs)
    exact text [] List.not_mem_nil
  | succ n ih =>
    intro cs hcs
    by_cases hquote : quoteMark ∈ cs
    · obtain ⟨before, after, rfl, hbefore⟩ := List.eq_append_cons_of_mem hquote
      by_cases hmore : quoteMark ∈ after
      · obtain ⟨content, rest, rfl, hcontent⟩ := List.eq_append_cons_of_mem hmore
        refine literal before content rest hbefore hcontent (ih rest ?_)
        simp only [List.length_append, List.length_cons] at hcs
        omega
      · exact unclosed before after hbefore hmore
    · exact text cs hquote

theorem even_count_text (hcs : quoteMark ∉ cs) : Even (cs.count quoteMark) := by
  rw [List.count_eq_zero_of_not_mem hcs]
  exact .zero

theorem even_count_literal (hcs : quoteMark ∉ cs) (hcontent : quoteMark ∉ content) (rest : List Char) :
    Even ((cs ++ quoteMark :: (content ++ quoteMark :: rest)).count quoteMark) ↔ Even (rest.count quoteMark) := by
  have hcount : (cs ++ quoteMark :: (content ++ quoteMark :: rest)).count quoteMark = rest.count quoteMark + 2 := by
    rw [List.count_append, List.count_cons_self, List.count_append, List.count_cons_self,
      List.count_eq_zero_of_not_mem hcs, List.count_eq_zero_of_not_mem hcontent]
    omega
  rw [hcount, Nat.even_iff, Nat.even_iff, Nat.add_mod_right]

end Quotes

namespace Lexeme

variable {cs content : List Char} {lexemes : List Lexeme} {offset : Nat}

theorem byteSize_append (xs ys : List Char) : byteSize (xs ++ ys) = byteSize xs + byteSize ys := by
  induction xs with
  | nil => exact (Nat.zero_add _).symm
  | cons c xs ih =>
    simp only [byteSize, List.cons_append, List.foldr_cons] at ih ⊢
    omega

/-- The size of characters is that of their text. -/
theorem byteSize_eq (cs : List Char) : byteSize cs = (String.ofList cs).utf8ByteSize := by
  induction cs with
  | nil => rfl
  | cons c cs ih =>
    rw [String.ofList_cons, String.utf8ByteSize_append, String.utf8ByteSize_singleton, ← ih]
    rfl

/-! ## From quote to quote -/

/-- The lexemes of characters that start at a byte. -/
def scanFrom (offset : Nat) (cs : List Char) : Except Nat (List Lexeme) :=
  ofStretches offset (cs.splitOn quoteMark)

theorem beq_quoteMark_eq_false (h : quoteMark ∉ cs) : ∀ c ∈ cs, (c == quoteMark) = false := by
  intro c hc
  rw [beq_eq_false_iff_ne]
  rintro rfl
  exact h hc

theorem splitOn_text (h : quoteMark ∉ cs) : cs.splitOn quoteMark = [cs] := by
  rw [List.splitOn_eq_splitOnP]
  exact List.splitOnP_eq_singleton (beq_quoteMark_eq_false h)

theorem splitOn_quote (h : quoteMark ∉ cs) (rest : List Char) :
    (cs ++ quoteMark :: rest).splitOn quoteMark = cs :: rest.splitOn quoteMark := by
  rw [List.splitOn_eq_splitOnP, List.splitOn_eq_splitOnP]
  exact List.splitOnP_append_cons_of_forall_mem (beq_quoteMark_eq_false h) _ (beq_self_eq_true quoteMark) rest

theorem scanFrom_text (offset : Nat) (h : quoteMark ∉ cs) : scanFrom offset cs = .ok (ofText cs) := by
  rw [scanFrom, splitOn_text h, ofStretches]

theorem scanFrom_unclosed (offset : Nat) (hcs : quoteMark ∉ cs) (hcontent : quoteMark ∉ content) :
    scanFrom offset (cs ++ quoteMark :: content) = .error (offset + byteSize cs) := by
  rw [scanFrom, splitOn_quote hcs, splitOn_text hcontent, ofStretches]

theorem scanFrom_literal (offset : Nat) (hcs : quoteMark ∉ cs) (hcontent : quoteMark ∉ content) (rest : List Char) :
    scanFrom offset (cs ++ quoteMark :: (content ++ quoteMark :: rest)) =
      (scanFrom (offset + byteSize cs + byteSize (quoteMark :: content ++ [quoteMark])) rest).map
        fun lexemes => ofText cs ++ literal (.ofList content) :: lexemes := by
  have hne : rest.splitOn quoteMark ≠ [] := by
    rw [List.splitOn_eq_splitOnP]
    exact List.splitOnP_ne_nil _ _
  have hoffset : offset + byteSize cs + quoteMark.utf8Size + byteSize content + quoteMark.utf8Size =
      offset + byteSize cs + byteSize (quoteMark :: content ++ [quoteMark]) := by
    rw [byteSize_append]
    simp only [byteSize, List.foldr_cons, List.foldr_nil]
    omega
  rw [scanFrom, splitOn_quote hcs, splitOn_quote hcontent, ofStretches_cons_cons hne, hoffset, scanFrom]

/-! ## Well-formed lexemes -/

def isText : Lexeme → Bool
  | text _ => true
  | literal _ => false

/-- Lexemes that can be scanned. -/
structure WellFormed (lexemes : List Lexeme) : Prop where
  clean : ∀ l ∈ lexemes, l.Clean
  nonempty : text "" ∉ lexemes
  apart : lexemes.IsChain fun l m => ¬ (l.isText = true ∧ m.isText = true)

theorem WellFormed.tail {l : Lexeme} (h : WellFormed (l :: lexemes)) : WellFormed lexemes where
  clean m hm := h.clean m (List.mem_cons_of_mem l hm)
  nonempty hm := h.nonempty (List.mem_cons_of_mem l hm)
  apart := h.apart.tail

theorem ofText_toList {s : String} (h : s ≠ "") : ofText s.toList = [text s] := by
  have hne : ¬ s.toList.isEmpty = true := by simpa using h
  rw [ofText, if_neg hne, String.ofList_toList]

theorem wellFormed_ofText (h : quoteMark ∉ cs) : WellFormed (ofText cs) where
  clean := clean_ofText h
  nonempty := by
    cases cs with
    | nil => exact List.not_mem_nil
    | cons c cs => simp [ofText, ← String.toList_inj]
  apart := by
    unfold ofText
    split
    · exact .nil
    · exact .singleton _

/-- A text, which may be empty, and a literal in front. -/
theorem WellFormed.cons (h : WellFormed lexemes) (hcs : quoteMark ∉ cs) (hcontent : quoteMark ∉ content) :
    WellFormed (ofText cs ++ literal (.ofList content) :: lexemes) where
  clean := by
    refine List.forall_mem_append.mpr ⟨clean_ofText hcs, List.forall_mem_cons.mpr ⟨?_, h.clean⟩⟩
    rwa [Clean, String.toList_ofList]
  nonempty hmem := by
    rcases List.mem_append.mp hmem with hmem | hmem
    · exact (wellFormed_ofText hcs).nonempty hmem
    · rcases List.mem_cons.mp hmem with heq | hmem
      · cases heq
      · exact h.nonempty hmem
  apart := by
    refine List.isChain_append.mpr ⟨(wellFormed_ofText hcs).apart, List.isChain_cons.mpr ⟨?_, h.apart⟩, ?_⟩
    · rintro l - ⟨hfalse, -⟩
      cases hfalse
    · rintro l - _ ⟨⟩ ⟨-, hfalse⟩
      cases hfalse

/-- Scanning gives well-formed lexemes. -/
theorem wellFormed_of_scanFrom (h : scanFrom offset cs = .ok lexemes) : WellFormed lexemes := by
  induction cs using quoted_induction generalizing offset lexemes with
  | text cs hcs =>
    rw [scanFrom_text offset hcs] at h
    cases h
    exact wellFormed_ofText hcs
  | unclosed cs content hcs hcontent =>
    rw [scanFrom_unclosed offset hcs hcontent] at h
    cases h
  | literal cs content rest hcs hcontent ih =>
    rw [scanFrom_literal offset hcs hcontent] at h
    cases hrest : scanFrom (offset + byteSize cs + byteSize (quoteMark :: content ++ [quoteMark])) rest with
    | error e =>
      rw [hrest] at h
      cases h
    | ok more =>
      rw [hrest] at h
      cases h
      exact (ih hrest).cons hcs hcontent

/-- **Well-formed lexemes are scanned to themselves.** -/
theorem scanFrom_flatMap_write : ∀ {lexemes : List Lexeme}, WellFormed lexemes → ∀ offset,
    scanFrom offset (lexemes.flatMap write) = .ok lexemes
  | [], _, offset => scanFrom_text offset List.not_mem_nil
  | [text s], h, offset => by
    have hquote : quoteMark ∉ s.toList := h.clean _ List.mem_cons_self
    have hne : s ≠ "" := fun hs => h.nonempty (by rw [hs]; exact List.mem_cons_self)
    rw [List.flatMap_singleton, write, scanFrom_text offset hquote, ofText_toList hne]
  | literal content :: lexemes, h, offset => by
    have hcontent : quoteMark ∉ content.toList := h.clean _ List.mem_cons_self
    have hwrite : (literal content :: lexemes).flatMap write =
        [] ++ quoteMark :: (content.toList ++ quoteMark :: lexemes.flatMap write) := by
      simp [write]
    rw [hwrite, scanFrom_literal offset List.not_mem_nil hcontent, scanFrom_flatMap_write h.tail,
      String.ofList_toList]
    rfl
  | text s :: literal content :: lexemes, h, offset => by
    have hquote : quoteMark ∉ s.toList := h.clean _ List.mem_cons_self
    have hcontent : quoteMark ∉ content.toList := h.tail.clean _ List.mem_cons_self
    have hne : s ≠ "" := fun hs => h.nonempty (by rw [hs]; exact List.mem_cons_self)
    have hwrite : (text s :: literal content :: lexemes).flatMap write =
        s.toList ++ quoteMark :: (content.toList ++ quoteMark :: lexemes.flatMap write) := by
      simp [write]
    rw [hwrite, scanFrom_literal offset hquote hcontent, scanFrom_flatMap_write h.tail.tail, ofText_toList hne,
      String.ofList_toList]
    rfl
  | text _ :: text _ :: _, h, _ => absurd ⟨rfl, rfl⟩ (List.isChain_cons_cons.mp h.apart).1

/-- **The lexemes of a source** are the well-formed lexemes that make it up. -/
theorem scan_eq_ok_iff {source : String} :
    scan source = .ok lexemes ↔ WellFormed lexemes ∧ writeAll lexemes = source := by
  constructor
  · intro h
    have hfrom : scanFrom 0 source.toList = .ok lexemes := h
    refine ⟨wellFormed_of_scanFrom hfrom, ?_⟩
    rw [writeAll, flatMap_write_of_scan h, String.ofList_toList]
  · rintro ⟨h, rfl⟩
    rw [scan, writeAll, String.toList_ofList]
    exact scanFrom_flatMap_write h 0

/-! ## Unclosed literals -/

theorem even_of_scanFrom (h : scanFrom offset cs = .ok lexemes) : Even (cs.count quoteMark) := by
  induction cs using quoted_induction generalizing offset lexemes with
  | text cs hcs => exact even_count_text hcs
  | unclosed cs content hcs hcontent =>
    rw [scanFrom_unclosed offset hcs hcontent] at h
    cases h
  | literal cs content rest hcs hcontent ih =>
    rw [scanFrom_literal offset hcs hcontent] at h
    cases hrest : scanFrom (offset + byteSize cs + byteSize (quoteMark :: content ++ [quoteMark])) rest with
    | error e =>
      rw [hrest] at h
      cases h
    | ok more => exact (even_count_literal hcs hcontent rest).mpr (ih hrest)

/-- **The last of an odd number of quotes is the error**, given by its byte. -/
theorem scanFrom_of_odd (h : ¬ Even (cs.count quoteMark)) (offset : Nat) : ∃ before after,
    cs = before ++ quoteMark :: after ∧ quoteMark ∉ after ∧ scanFrom offset cs = .error (offset + byteSize before) := by
  induction cs using quoted_induction generalizing offset with
  | text cs hcs => exact absurd (even_count_text hcs) h
  | unclosed cs content hcs hcontent => exact ⟨cs, content, rfl, hcontent, scanFrom_unclosed offset hcs hcontent⟩
  | literal cs content rest hcs hcontent ih =>
    rw [even_count_literal hcs hcontent] at h
    obtain ⟨before, after, rfl, hafter, hscan⟩ :=
      ih h (offset + byteSize cs + byteSize (quoteMark :: content ++ [quoteMark]))
    refine ⟨cs ++ (quoteMark :: content ++ [quoteMark]) ++ before, after, by simp, hafter, ?_⟩
    have hoffset : offset + byteSize cs + byteSize (quoteMark :: content ++ [quoteMark]) + byteSize before =
        offset + byteSize (cs ++ (quoteMark :: content ++ [quoteMark]) ++ before) := by
      rw [byteSize_append _ before, byteSize_append cs, ← Nat.add_assoc, ← Nat.add_assoc]
    rw [scanFrom_literal offset hcs hcontent, hscan, hoffset]
    rfl

theorem even_of_scan {source : String} (h : scan source = .ok lexemes) : Even (source.toList.count quoteMark) := by
  have hfrom : scanFrom 0 source.toList = .ok lexemes := h
  exact even_of_scanFrom hfrom

end Lexeme

end CallExpr

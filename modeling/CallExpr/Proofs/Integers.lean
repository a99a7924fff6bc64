import CallExpr.Proofs.ErrorSources
import CallExpr.Proofs.Lossless
import CallExpr.Proofs.Promotion
import CallExpr.Proofs.Words
import CallExpr.Proofs.Writing

/-!
# Words that are integers

* `Decimal.IsNatural`, `Decimal.IsInteger`: digits, and digits behind an optional sign, with the number that they
  denote.
* `Decimal.integer?_eq_some_iff`: so words are read, and so integers are written (`Decimal.isInteger_toString`).
* `Value.ofWord?_eq_integer_iff`: a word stands for the integer that it denotes, if that has room in 64 bits.
* `Dialect.read_word`: a word alone is read to one variable.
* `Bindings.resolve_integers`: an integer that is written comes back.
-/

namespace CallExpr

namespace Decimal

/-- Digits from 0 to 9, one or more, denote a number. -/
inductive IsNatural : List Char → Nat → Prop
  | digit {c : Char} : c.isDigit = true → IsNatural [c] (c.toNat - '0'.toNat)
  | snoc {cs : List Char} {n : Nat} {c : Char} :
    IsNatural cs n → c.isDigit = true → IsNatural (cs ++ [c]) (10 * n + (c.toNat - '0'.toNat))

/-- Digits behind an optional sign denote an integer. -/
inductive IsInteger : List Char → Int → Prop
  | unsigned {cs : List Char} {n : Nat} : IsNatural cs n → IsInteger cs n
  | plus {cs : List Char} {n : Nat} : IsNatural cs n → IsInteger ('+' :: cs) n
  | minus {cs : List Char} {n : Nat} : IsNatural cs n → IsInteger ('-' :: cs) (-n)

variable {cs : List Char} {n : Nat} {i j : Int}

/-! ## How integers are read -/

theorem ofDigits_append_singleton (cs : List Char) (c : Char) :
    ofDigits (cs ++ [c]) = 10 * ofDigits cs + (c.toNat - '0'.toNat) := by
  rw [ofDigits, Nat.ofDigitChars_append, Nat.ofDigitChars_cons, Nat.ofDigitChars_nil, ofDigits]

theorem isNatural_iff : IsNatural cs n ↔ isDigits cs = true ∧ ofDigits cs = n := by
  constructor
  · intro h
    induction h with
    | digit hc => exact ⟨by simp [isDigits, hc], by simp [ofDigits, Nat.ofDigitChars_cons]⟩
    | snoc _ hc ih =>
      obtain ⟨hdigits, rfl⟩ := ih
      have hcs := (Bool.and_eq_true_iff.mp hdigits).2
      exact ⟨by simpa [isDigits, hc] using hcs, ofDigits_append_singleton _ _⟩
  · rintro ⟨h, rfl⟩
    induction cs using List.reverseRecOn with
    | nil => cases h
    | append_singleton cs c ih =>
      obtain ⟨hcs, hc⟩ : (∀ x ∈ cs, x.isDigit = true) ∧ c.isDigit = true := by simpa [isDigits] using h
      rw [ofDigits_append_singleton]
      cases cs with
      | nil => simpa [ofDigits] using IsNatural.digit hc
      | cons x cs => exact .snoc (ih (by simpa [isDigits] using hcs)) hc

/-- Digits have no sign. -/
theorem signed_of_isDigits (h : isDigits cs = true) : signed cs = (false, cs) := by
  unfold signed
  split
  · simp [isDigits, Char.isDigit] at h
  · simp [isDigits, Char.isDigit] at h
  · rfl

/-- A word is read as the integer that it denotes. -/
theorem integer?_eq_some_iff : integer? cs = some i ↔ IsInteger cs i := by
  constructor
  · intro h
    obtain ⟨hdigits, hi⟩ : isDigits (signed cs).2 = true ∧
        (if (signed cs).1 then -(ofDigits (signed cs).2 : Int) else ofDigits (signed cs).2) = i := by
      simpa [integer?] using h
    subst hi
    have hnatural := isNatural_iff.mpr ⟨hdigits, rfl⟩
    unfold signed at hnatural ⊢
    split at hnatural
    · exact .minus hnatural
    · exact .plus hnatural
    · exact .unsigned hnatural
  · intro h
    cases h with
    | unsigned h =>
      obtain ⟨hdigits, rfl⟩ := isNatural_iff.mp h
      simp [integer?, signed_of_isDigits hdigits, hdigits]
    | plus h =>
      obtain ⟨hdigits, rfl⟩ := isNatural_iff.mp h
      simp [integer?, signed, hdigits]
    | minus h =>
      obtain ⟨hdigits, rfl⟩ := isNatural_iff.mp h
      simp [integer?, signed, hdigits]

/-- A word denotes one integer. -/
theorem IsInteger.unique (h : IsInteger cs i) (h' : IsInteger cs j) : i = j :=
  Option.some.inj ((integer?_eq_some_iff.mpr h).symm.trans (integer?_eq_some_iff.mpr h'))

/-! ## How integers are written -/

theorem isNatural_toDigits (n : Nat) : IsNatural (Nat.toDigits 10 n) n := by
  refine isNatural_iff.mpr ⟨?_, Nat.ofDigitChars_ten_toDigits⟩
  have hdigits : ∀ c ∈ Nat.toDigits 10 n, c.isDigit = true := fun c hc =>
    Nat.isDigit_of_mem_toDigits (by decide) (by decide) hc
  simpa [isDigits, Nat.toDigits_ne_nil] using hdigits

/-- An integer is written as a word that denotes it. -/
theorem isInteger_toString (i : Int) : IsInteger (toString i).toList i := by
  rw [Int.toString_eq_repr]
  cases i with
  | ofNat n =>
    have hrepr : (Int.repr (.ofNat n)).toList = Nat.toDigits 10 n := Nat.toList_repr
    rw [hrepr]
    exact .unsigned (isNatural_toDigits n)
  | negSucc n =>
    have hrepr : (Int.repr (.negSucc n)).toList = '-' :: Nat.toDigits 10 (n + 1) := by
      rw [Int.repr, String.toList_append, Nat.toList_repr]
      rfl
    rw [hrepr, Int.negSucc_eq]
    exact .minus (isNatural_toDigits (n + 1))

/-- The characters of an integer are digits and signs. -/
theorem IsInteger.chars (h : IsInteger cs i) : ∀ c ∈ cs, c.isDigit = true ∨ c = '+' ∨ c = '-' := by
  have hdigits : ∀ {cs n}, IsNatural cs n → ∀ c ∈ cs, c.isDigit = true ∨ c = '+' ∨ c = '-' := by
    intro cs n h c hc
    have hall := (Bool.and_eq_true_iff.mp (isNatural_iff.mp h).1).2
    exact Or.inl (List.all_eq_true.mp hall c hc)
  cases h with
  | unsigned h => exact hdigits h
  | plus h => exact List.forall_mem_cons.mpr ⟨.inr (.inl rfl), hdigits h⟩
  | minus h => exact List.forall_mem_cons.mpr ⟨.inr (.inr rfl), hdigits h⟩

theorem IsInteger.ne_nil (h : IsInteger cs i) : cs ≠ [] := by
  rintro rfl
  have hnone : integer? [] = some i := integer?_eq_some_iff.mpr h
  cases hnone

end Decimal

/-! ## Words with room in 64 bits -/

section Words

variable {w : String} {i : Int} {n : Int64}

theorem exists_toInt_iff : (∃ n : Int64, n.toInt = i) ↔ -2 ^ 63 ≤ i ∧ i ≤ 2 ^ 63 - 1 := by
  constructor
  · rintro ⟨n, rfl⟩
    have hlow := n.le_toInt
    have hhigh := n.toInt_lt
    omega
  · rintro ⟨hlow, hhigh⟩
    exact ⟨.ofInt i, Int64.toInt_ofInt_of_le hlow (by omega)⟩

/-- A word stands for the integer that it denotes. -/
theorem Value.ofWord?_eq_integer_iff : ofWord? w = some (.integer n) ↔ Decimal.IsInteger w.toList n.toInt := by
  rw [← Decimal.integer?_eq_some_iff]
  cases h : (Decimal.integer? w.toList).bind int64? with
  | some m =>
    obtain ⟨i, hi, hm⟩ := Option.bind_eq_some_iff.mp h
    have hword : ofWord? w = some (.integer m) := by simp [ofWord?, h]
    rw [hword, hi, Option.some.injEq, Option.some.injEq, ← toInt_of_int64? hm, Int64.toInt_inj, integer.injEq]
  | none =>
    constructor
    · intro hword
      -- What is no integer is a double or nothing.
      simp only [ofWord?, h] at hword
      split at hword
      · split at hword <;> cases hword
      · cases hword
    · intro hi
      rw [hi, Option.bind_some, int64?_toInt] at h
      cases h

end Words

/-! ## A word alone -/

theorem not_structural_of_isDigit {c : Char} (h : c.isDigit = true) : Argument.isStructural ',' c = false := by
  refine Argument.isStructural_eq_false_iff.mpr ⟨ne_paren_of_isNameChar (isNameChar_of_isDigit h), ?_⟩
  rintro rfl
  cases h

/-- What denotes an integer is a word of a source, without blanks and quotes. -/
theorem Decimal.IsInteger.isWord {cs : List Char} {i : Int} (h : IsInteger cs i) :
    Grammar.IsWord ',' cs ∧ (∀ c ∈ cs, Text.isBlank c = false) ∧ quoteMark ∉ cs := by
  have hchars : ∀ c ∈ cs, Argument.isStructural ',' c = false ∧ c ≠ quoteMark ∧ Text.isBlank c = false := by
    intro c hc
    rcases h.chars c hc with hdigit | rfl | rfl
    · exact ⟨not_structural_of_isDigit hdigit, not_blank_of_isNameChar (isNameChar_of_isDigit hdigit)⟩
    · decide
    · decide
  refine ⟨⟨fun c hc => (hchars c hc).1, h.ne_nil, fun hspace => ?_⟩, fun c hc => (hchars c hc).2.2,
    fun hquote => (hchars _ hquote).2.1 rfl⟩
  have hblank := (hchars _ hspace).2.2
  rw [Text.isBlank_space] at hblank
  cases hblank

/-- A word alone is read to one variable. -/
theorem Dialect.read_word {d : Dialect} {w : String} (hd : isUsable d.delimiter = true) (hdepth : 0 < d.maxDepth)
    (hword : Grammar.IsWord d.delimiter w.toList) (hblank : ∀ c ∈ w.toList, Text.isBlank c = false)
    (hquote : quoteMark ∉ w.toList) : (d.read w).result = .ok ⟨⟨#[.variable w]⟩, [⟨0⟩]⟩ := by
  have hscan : Lexeme.scan w = .ok [.text w] := by
    rw [← Lexeme.ofText_toList fun h => hword.2.1 (by rw [h]; rfl)]
    exact Lexeme.scanFrom_text 0 hquote
  have hitems : literalItems (Item.ofLexemes [.text w]) = w.toList.map .char := by
    simp [literalItems, Item.ofLexemes, Item.ofLexeme, Text.collapse, Text.collapseFrom_of_not_blank hblank, Item.map]
  have hterms := (ReadsForest.last (ReadsTop.word hword)).readTerms
  rw [← hitems, String.ofList_toList] at hterms
  exact read_eq_ok_iff.mpr ⟨hd, _, _, hscan, hterms, hdepth, rfl⟩

/-- A word that is read alone has the value of its variable. -/
theorem Setup.evaluate_word {env : Environment} {d : Dialect} {w : String} {value : Value}
    (hread : (d.read w).result = .ok ⟨⟨#[.variable w]⟩, [⟨0⟩]⟩) (hvalue : env.resolve w = some value) :
    (Setup.evaluate ⟨env, d⟩ w).result = .ok value := by
  have hresult : (env.evaluate ⟨⟨#[.variable w]⟩, [⟨0⟩]⟩).result = .ok value := by
    change ((env.resolve w).elim (.error (.unbound w)) .ok : Except EvalError Value) = .ok value
    rw [hvalue]
    rfl
  rw [Environment.result_evaluate_of_read hread, hresult]
  rfl

namespace Bindings

variable {b : Bindings} {w : String}

theorem resolve_of_not_set (hb : b.numbers = true) (hw : b.values.get? w = none) : b.resolve w = Value.ofWord? w := by
  simp only [resolve, hw, hb, if_true]

/-- **Integers that are written come back.** A word that was not set stands for the integer that it denotes, with digits
behind an optional sign, if that has room in 64 bits; without room it stands for no integer. So the text of an integer
is evaluated to that integer, whatever functions there are. -/
theorem resolve_integers (hb : b.numbers = true) :
    (∀ w, b.values.get? w = none →
      (∀ i : Int, (∃ n : Int64, b.resolve w = some (.integer n) ∧ n.toInt = i) ↔
        Decimal.IsInteger w.toList i ∧ -2 ^ 63 ≤ i ∧ i ≤ 2 ^ 63 - 1) ∧
      ∀ i, Decimal.IsInteger w.toList i → ¬ (-2 ^ 63 ≤ i ∧ i ≤ 2 ^ 63 - 1) → ∀ n, b.resolve w ≠ some (.integer n)) ∧
    ∀ (registry : Registry) (n : Int64), b.values.get? (Value.integer n).write = none →
      (Setup.evaluate ⟨⟨registry, b.resolve⟩, {}⟩ (Value.integer n).write).result = .ok (.integer n) := by
  refine ⟨fun w hw => ⟨fun i => ?_, fun i hi hrange n hn => ?_⟩, fun registry n hn => ?_⟩
  · rw [resolve_of_not_set hb hw, ← exists_toInt_iff]
    constructor
    · rintro ⟨n, hn, rfl⟩
      exact ⟨Value.ofWord?_eq_integer_iff.mp hn, n, rfl⟩
    · rintro ⟨hi, n, rfl⟩
      exact ⟨n, Value.ofWord?_eq_integer_iff.mpr hi, rfl⟩
  · rw [resolve_of_not_set hb hw, Value.ofWord?_eq_integer_iff] at hn
    exact hrange (exists_toInt_iff.mp ⟨n, hn.unique hi⟩)
  · have hinteger : Decimal.IsInteger (Value.integer n).write.toList n.toInt := Decimal.isInteger_toString n.toInt
    obtain ⟨hword, hblank, hquote⟩ := hinteger.isWord
    refine Setup.evaluate_word (Dialect.read_word rfl (by decide) hword hblank hquote) ?_
    exact (resolve_of_not_set hb hn).trans (Value.ofWord?_eq_integer_iff.mpr hinteger)

/-- The least integer comes back, but has no room without its sign. The word `7` was set, and another word that denotes
seven was not. -/
theorem resolve_integers_bounds :
    let b : Bindings := Bindings.set {} "7" (.text "seven")
    b.numbers = true ∧ b.values.get? "+007" = none ∧
    (∃ n : Int64, b.resolve "+007" = some (.integer n) ∧ n.toInt = 7) ∧
    (∀ n, b.resolve "9223372036854775808" ≠ some (.integer n)) ∧
    (Value.integer Int64.minValue).write = "-9223372036854775808" ∧
    (Setup.evaluate ⟨⟨.withBuiltins, b.resolve⟩, {}⟩ (Value.integer Int64.minValue).write).result =
      .ok (.integer Int64.minValue) := by
  intro b
  have hset : b.values.get? "+007" = none := by decide
  have hseven : Decimal.IsInteger "+007".toList 7 := Decimal.integer?_eq_some_iff.mp (by decide)
  have hlarge : Decimal.IsInteger "9223372036854775808".toList (2 ^ 63) := Decimal.integer?_eq_some_iff.mp (by decide)
  obtain ⟨hwords, hevaluate⟩ := resolve_integers (b := b) rfl
  refine ⟨rfl, hset, ((hwords _ hset).1 7).mpr ⟨hseven, by decide⟩, ?_, by decide, hevaluate _ _ (by decide)⟩
  exact (hwords _ (by decide)).2 _ hlarge (by decide)

end Bindings

end CallExpr

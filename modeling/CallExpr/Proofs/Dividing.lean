import CallExpr.Proofs.Combining

/-!
# Differences and quotients, completely

* `Arithmetic.twoNumbers_cases`: two values that are numbers, or the first reason why they are not.
* `Arithmetic.quotient_eq_integer_iff`: an integer quotient is one that takes the divisor to the dividend.
* `Arithmetic.quotient_eq_guarded`: the quotient of integers is found by divisions in 64 bits, of which the remainder
  is looked at first; then the quotient has room.
* `Builtin.run_sub_div`: what the functions for differences and for quotients do.
-/

namespace CallExpr

namespace Arithmetic

variable {function : String} {vs : List Value} {v : Value} {m n q : Int64}

/-! ## Two numbers -/

theorem twoNumbers_toValue (function : String) (a b : Number) :
    twoNumbers function [a.toValue, b.toValue] = .ok (a, b) := by
  simp only [twoNumbers, two, Number.ofValue_toValue, bind, Except.bind]
  rfl

/-- The number of values is looked at before the values. -/
theorem twoNumbers_of_length_ne (h : vs.length ≠ 2) (function : String) :
    twoNumbers function vs = .error (.arity function (.exactly 2) vs.length) := by
  match vs with
  | [] | [_] | _ :: _ :: _ :: _ => rfl
  | [_, _] => exact absurd rfl h

/-- The first value that is no number. -/
theorem twoNumbers_of_not_isNumber {before after : List Value} (hvs : vs = before ++ v :: after)
    (hlength : vs.length = 2) (hbefore : ∀ w ∈ before, w.IsNumber) (hv : ¬ v.IsNumber) (function : String) :
    twoNumbers function vs = .error (.kind function v.kind) := by
  subst hvs
  match before, after with
  | [], [w] =>
    simp only [List.nil_append, twoNumbers, two, bind, Except.bind, Number.ofValue_of_not_isNumber hv]
  | [w], [] =>
    obtain ⟨a, rfl⟩ := hbefore w List.mem_cons_self
    simp only [List.singleton_append, twoNumbers, two, bind, Except.bind, Number.ofValue_toValue,
      Number.ofValue_of_not_isNumber hv]
  | [], [] | [], _ :: _ :: _ | [_], _ :: _ | _ :: _ :: _, _ => simp at hlength

/-- Two values are numbers, or there is a first that is none. -/
theorem twoNumbers_cases (vs : List Value) : vs.length ≠ 2 ∨
    (∃ before v after, vs = before ++ v :: after ∧ vs.length = 2 ∧ (∀ w ∈ before, w.IsNumber) ∧ ¬ v.IsNumber) ∨
      ∃ a b : Number, vs = [a.toValue, b.toValue] := by
  by_cases hlength : vs.length = 2
  · obtain ⟨v, w, rfl⟩ := List.length_eq_two.mp hlength
    by_cases hv : v.IsNumber
    · obtain ⟨a, rfl⟩ := hv
      by_cases hw : w.IsNumber
      · obtain ⟨b, rfl⟩ := hw
        exact .inr (.inr ⟨a, b, rfl⟩)
      · exact .inr (.inl ⟨[a.toValue], w, [], rfl, rfl, by simp [a.isNumber_toValue], hw⟩)
    · exact .inr (.inl ⟨[], v, [w], rfl, rfl, by simp, hv⟩)
  · exact .inl hlength

theorem subtract_toValue (function : String) (a b : Number) :
    subtract function [a.toValue, b.toValue] = (Operation.difference.apply function a b).map Number.toValue := by
  rw [subtract, twoNumbers_toValue]
  change (Operation.difference.apply function a b).bind _ = _
  cases Operation.difference.apply function a b <;> rfl

theorem divide_toValue (function : String) (a b : Number) :
    divide function [a.toValue, b.toValue] = (quotient a b).map Number.toValue := by
  rw [divide, twoNumbers_toValue]
  change (quotient a b).bind _ = _
  cases quotient a b <;> rfl

/-! ## Quotients of integers -/

theorem toInt_ne_zero (hn : n ≠ 0) : n.toInt ≠ 0 := fun h => hn (Int64.toInt_inj.mp h)

theorem quotient_of_zero (m : Int64) : quotient (.integer m) (.integer 0) = .error .divisionByZero := rfl

/-- An integer that takes the divisor to the dividend is the quotient. -/
theorem quotient_of_mul_eq (hn : n ≠ 0) (hq : q.toInt * n.toInt = m.toInt) :
    quotient (.integer m) (.integer n) = .ok (.integer q) := by
  have hdvd : n.toInt ∣ m.toInt := Dvd.intro_left _ hq
  have hdiv : m.toInt / n.toInt = q.toInt := Int.ediv_eq_of_eq_mul_left (toInt_ne_zero hn) hq.symm
  simp only [quotient, if_neg (toInt_ne_zero hn), if_pos hdvd, hdiv, int64?_toInt]

/-- If no integer does, the quotient is a double. -/
theorem quotient_of_mul_ne (hn : n ≠ 0) (h : ∀ q : Int64, q.toInt * n.toInt ≠ m.toInt) :
    quotient (.integer m) (.integer n) = .ok (.float (floatOfInt64 m / floatOfInt64 n)) := by
  simp only [quotient, if_neg (toInt_ne_zero hn)]
  by_cases hdvd : n.toInt ∣ m.toInt
  · rw [if_pos hdvd]
    cases hq : int64? (m.toInt / n.toInt) with
    | none => rfl
    | some q =>
      refine absurd ?_ (h q)
      rw [toInt_of_int64? hq, Int.ediv_mul_cancel hdvd]
  · rw [if_neg hdvd]

theorem quotient_eq_integer_iff :
    quotient (.integer m) (.integer n) = .ok (.integer q) ↔ n ≠ 0 ∧ q.toInt * n.toInt = m.toInt := by
  constructor
  · intro h
    obtain ⟨x, y, hx, hy, hzero, hq⟩ := integers_of_quotient h
    cases hx
    cases hy
    exact ⟨fun hn => hzero (hn ▸ rfl), hq⟩
  · rintro ⟨hn, hq⟩
    exact quotient_of_mul_eq hn hq

/-- Every quotient by another integer than zero is a number. -/
theorem exists_quotient (m : Int64) (hn : n ≠ 0) : ∃ a, quotient (.integer m) (.integer n) = .ok a := by
  by_cases hq : ∃ q : Int64, q.toInt * n.toInt = m.toInt
  · obtain ⟨q, hq⟩ := hq
    exact ⟨_, quotient_of_mul_eq hn hq⟩
  · exact ⟨_, quotient_of_mul_ne hn fun q hmul => hq ⟨q, hmul⟩⟩

theorem quotient_eq_divisionByZero_iff : quotient (.integer m) (.integer n) = .error .divisionByZero ↔ n = 0 := by
  refine ⟨fun h => ?_, fun h => h ▸ quotient_of_zero m⟩
  by_contra hn
  obtain ⟨a, ha⟩ := exists_quotient m hn
  cases h.symm.trans ha

theorem quotient_ne_overflow (a b : Number) (function : String) : quotient a b ≠ .error (.overflow function) := by
  intro h
  cases a with
  | float x => cases h
  | integer m =>
    cases b with
    | float y => cases h
    | integer n =>
      by_cases hn : n = 0
      · subst hn
        cases h
      · obtain ⟨a, ha⟩ := exists_quotient m hn
        cases h.symm.trans ha

/-! ## Division in 64 bits -/

/-- Division in 64 bits has a result: it is not by zero, and the quotient has room. -/
def DivisionFits (m n : Int64) : Prop :=
  n ≠ 0 ∧ ¬ (m = Int64.minValue ∧ n = -1)

instance (m n : Int64) : Decidable (DivisionFits m n) :=
  inferInstanceAs (Decidable (_ ∧ _))

/-- The remainder of a division that rounds towards zero. -/
def remainder? (m n : Int64) : Option Int64 :=
  if DivisionFits m n then some (m % n) else none

/-- The quotient of a division that rounds towards zero. -/
def truncated? (m n : Int64) : Option Int64 :=
  if DivisionFits m n then some (m / n) else none

/-- Division in 64 bits, after a look at the remainder. A quotient without room would be an overflow. -/
def guarded (function : String) (m n : Int64) : Except Failure Number :=
  if n = 0 then .error .divisionByZero
  else if remainder? m n = some 0 then
    match truncated? m n with
    | some q => .ok (.integer q)
    | none => .error (.overflow function)
  else .ok (.float (floatOfInt64 m / floatOfInt64 n))

theorem remainder?_eq_zero_iff : remainder? m n = some 0 ↔ DivisionFits m n ∧ n.toInt ∣ m.toInt := by
  rw [remainder?, Int.dvd_iff_tmod_eq_zero, ← Int64.toInt_mod]
  split
  · next h => simp [h, ← Int64.toInt_inj]
  · next h => simp [h]

/-- If the remainder is zero, the quotient has room and is exact. -/
theorem truncated?_of_remainder? (h : remainder? m n = some 0) :
    ∃ q, truncated? m n = some q ∧ q.toInt * n.toInt = m.toInt := by
  obtain ⟨hfits, hdvd⟩ := remainder?_eq_zero_iff.mp h
  refine ⟨m / n, if_pos hfits, ?_⟩
  have htrunc : (m / n).toInt = m.toInt.tdiv n.toInt := by
    by_cases hmin : m = Int64.minValue
    · exact Int64.toInt_div_of_ne_right m n fun hn => hfits.2 ⟨hmin, hn⟩
    · exact Int64.toInt_div_of_ne_left m n hmin
  rw [htrunc, Int.tdiv_eq_ediv_of_dvd hdvd, Int.ediv_mul_cancel hdvd]

/-- The quotient of the least integer by -1 has no room. -/
theorem mul_neg_one_ne_minValue (q : Int64) : q.toInt * (-1 : Int64).toInt ≠ Int64.minValue.toInt := by
  have hneg : (-1 : Int64).toInt = -1 := rfl
  have hmax : Int64.maxValue.toInt = 2 ^ 63 - 1 := by decide
  have hle := q.toInt_le
  rw [hneg, Int64.toInt_minValue]
  omega

/-- An exact quotient leaves no remainder. -/
theorem remainder?_of_mul_eq (hn : n ≠ 0) (hq : q.toInt * n.toInt = m.toInt) : remainder? m n = some 0 := by
  refine remainder?_eq_zero_iff.mpr ⟨⟨hn, ?_⟩, Dvd.intro_left _ hq⟩
  rintro ⟨rfl, rfl⟩
  exact mul_neg_one_ne_minValue q hq

/-- **The overflow of a division in 64 bits is never reached.** -/
theorem quotient_eq_guarded (function : String) (m n : Int64) :
    quotient (.integer m) (.integer n) = guarded function m n := by
  unfold guarded
  by_cases hn : n = 0
  · subst hn
    rfl
  · rw [if_neg hn]
    by_cases hremainder : remainder? m n = some 0
    · obtain ⟨q, htruncated, hq⟩ := truncated?_of_remainder? hremainder
      rw [if_pos hremainder, htruncated, quotient_of_mul_eq hn hq]
    · rw [if_neg hremainder, quotient_of_mul_ne hn fun q hq => hremainder (remainder?_of_mul_eq hn hq)]

end Arithmetic

namespace Builtin

open Arithmetic

/-- The values are looked at in the same way by both functions. -/
theorem run_of_twoNumbers_error {b : Builtin} (hb : b = sub ∨ b = div) {name : String} {vs : List Value}
    {failure : Failure} (h : twoNumbers name vs = .error failure) (n : Nat) :
    b.behaviour.run name vs n = .done (.error (.failed failure)) := by
  rcases hb with rfl | rfl
  · simp only [behaviour, ofValues, subtract, h]
    rfl
  · simp only [behaviour, ofValues, divide, h]
    rfl

variable {r : Except Failure Number}

theorem done_eq_integer_iff {n : Nat} {q : Int64} :
    (.done ((r.map Number.toValue).mapError .failed) : Script n) = .done (.ok (.integer q)) ↔
      r = .ok (.integer q) := by
  rcases r with failure | (m | x) <;> simp [Except.map, Except.mapError, Number.toValue]

theorem done_eq_failed_iff {n : Nat} {failure : Failure} :
    (.done ((r.map Number.toValue).mapError .failed) : Script n) = .done (.error (.failed failure)) ↔
      r = .error failure := by
  rcases r with failure | a <;> simp [Except.map, Except.mapError]

theorem run_sub (name : String) (a b : Number) (n : Nat) : sub.behaviour.run name [a.toValue, b.toValue] n =
    .done (((Operation.difference.apply name a b).map Number.toValue).mapError .failed) := by
  simp only [behaviour, ofValues, subtract_toValue]

theorem run_div (name : String) (a b : Number) (n : Nat) : div.behaviour.run name [a.toValue, b.toValue] n =
    .done (((quotient a b).map Number.toValue).mapError .failed) := by
  simp only [behaviour, ofValues, divide_toValue]

theorem run_div_ne_overflow (name function : String) (vs : List Value) (n : Nat) :
    div.behaviour.run name vs n ≠ .done (.error (.failed (.overflow function))) := by
  intro h
  rcases twoNumbers_cases vs with hlength | ⟨before, v, after, hvs, hlength, hbefore, hv⟩ | ⟨a, b, rfl⟩
  · rw [run_of_twoNumbers_error (.inr rfl) (twoNumbers_of_length_ne hlength name)] at h
    cases h
  · rw [run_of_twoNumbers_error (.inr rfl) (twoNumbers_of_not_isNumber hvs hlength hbefore hv name)] at h
    cases h
  · rw [run_div, done_eq_failed_iff] at h
    exact quotient_ne_overflow a b function h

theorem run_sub_integers (name : String) (x y : Int64) (n : Nat) :
    (InRange (x.toInt - y.toInt) → ∃ d : Int64, d.toInt = x.toInt - y.toInt ∧
      sub.behaviour.run name [.integer x, .integer y] n = .done (.ok (.integer d))) ∧
    (¬ InRange (x.toInt - y.toInt) →
      sub.behaviour.run name [.integer x, .integer y] n = .done (.error (.failed (.overflow name)))) := by
  have hsub := run_sub name (.integer x) (.integer y) n
  have happly : Operation.difference.apply name (.integer x) (.integer y) =
      Number.narrow name (x.toInt - y.toInt) := rfl
  rw [happly] at hsub
  constructor
  · intro hrange
    obtain ⟨d, hd, hvalue⟩ := Number.exists_narrow hrange name
    rw [hd] at hsub
    exact ⟨d, hvalue, hsub⟩
  · intro hrange
    rw [Number.narrow_of_not_inRange hrange] at hsub
    exact hsub

theorem run_div_integers (name : String) (x y : Int64) (n : Nat) :
    (div.behaviour.run name [.integer x, .integer y] n = .done (.error (.failed .divisionByZero)) ↔ y = 0) ∧
    (∀ q : Int64, div.behaviour.run name [.integer x, .integer y] n = .done (.ok (.integer q)) ↔
      y ≠ 0 ∧ q.toInt * y.toInt = x.toInt) ∧
    (y ≠ 0 → (∀ q : Int64, q.toInt * y.toInt ≠ x.toInt) →
      div.behaviour.run name [.integer x, .integer y] n = .done (.ok (.float (floatOfInt64 x / floatOfInt64 y)))) ∧
    div.behaviour.run name [.integer x, .integer y] n =
      .done (((guarded name x y).map Number.toValue).mapError .failed) := by
  have hdiv := run_div name (.integer x) (.integer y) n
  simp only [Number.toValue] at hdiv
  refine ⟨?_, fun q => ?_, fun hy hq => ?_, ?_⟩
  · rw [hdiv]
    exact done_eq_failed_iff.trans quotient_eq_divisionByZero_iff
  · rw [hdiv]
    exact done_eq_integer_iff.trans quotient_eq_integer_iff
  · rw [hdiv, quotient_of_mul_ne hy hq]
    rfl
  · rw [hdiv, quotient_eq_guarded name]

/-- **Differences and quotients, completely.** Both functions look at the number of values first, then at their kinds
from left to right. The difference of integers is exact, or an overflow. Their quotient is an integer just if there is
one that takes the divisor to the dividend; by zero it fails, and else it is a double. It is never an overflow, although
it is found by divisions in 64 bits. -/
theorem run_sub_div (name : String) (vs : List Value) (n : Nat) :
    (∀ b, b = sub ∨ b = div →
      (vs.length ≠ 2 → b.behaviour.run name vs n = .done (.error (.failed (.arity name (.exactly 2) vs.length)))) ∧
      ∀ before v after, vs = before ++ v :: after → vs.length = 2 → (∀ w ∈ before, w.IsNumber) → ¬ v.IsNumber →
          b.behaviour.run name vs n = .done (.error (.failed (.kind name v.kind)))) ∧
    (∀ x y : Int64, vs = [.integer x, .integer y] →
      ((InRange (x.toInt - y.toInt) → ∃ d : Int64, d.toInt = x.toInt - y.toInt ∧
          sub.behaviour.run name vs n = .done (.ok (.integer d))) ∧
        (¬ InRange (x.toInt - y.toInt) → sub.behaviour.run name vs n = .done (.error (.failed (.overflow name))))) ∧
      (div.behaviour.run name vs n = .done (.error (.failed .divisionByZero)) ↔ y = 0) ∧
      (∀ q : Int64, div.behaviour.run name vs n = .done (.ok (.integer q)) ↔
        y ≠ 0 ∧ q.toInt * y.toInt = x.toInt) ∧
      (y ≠ 0 → (∀ q : Int64, q.toInt * y.toInt ≠ x.toInt) →
        div.behaviour.run name vs n = .done (.ok (.float (floatOfInt64 x / floatOfInt64 y)))) ∧
      div.behaviour.run name vs n = .done (((guarded name x y).map Number.toValue).mapError .failed)) ∧
    ∀ function, div.behaviour.run name vs n ≠ .done (.error (.failed (.overflow function))) := by
  refine ⟨fun b hb => ⟨fun hlength => ?_, fun before v after hvs hlength hbefore hv => ?_⟩, ?_, fun function =>
    run_div_ne_overflow name function vs n⟩
  · exact run_of_twoNumbers_error hb (twoNumbers_of_length_ne hlength name) n
  · exact run_of_twoNumbers_error hb (twoNumbers_of_not_isNumber hvs hlength hbefore hv name) n
  · rintro x y rfl
    exact ⟨run_sub_integers name x y n, run_div_integers name x y n⟩

/-- The quotient of the least integer by -1 is a double. A text is found before a division by zero; of a truth value and
a text the first counts. -/
theorem run_sub_div_least :
    div.behaviour.run "by" [.integer Int64.minValue, .integer (-1)] 2 =
        .done (.ok (.float (floatOfInt64 Int64.minValue / floatOfInt64 (-1)))) ∧
      sub.behaviour.run "less" [.integer Int64.minValue, .integer 1] 2 = .done (.error (.failed (.overflow "less"))) ∧
      div.behaviour.run "by" [.text "a", .integer 0] 2 = .done (.error (.failed (.kind "by" .text))) ∧
      sub.behaviour.run "less" [.boolean true, .text "a"] 2 = .done (.error (.failed (.kind "less" .boolean))) ∧
      sub.behaviour.run "less" [.float 1, .text "a"] 2 = .done (.error (.failed (.kind "less" .text))) ∧
      div.behaviour.run "by" [.text "a"] 1 = .done (.error (.failed (.arity "by" (.exactly 2) 1))) := by
  obtain ⟨-, hintegers, -⟩ := run_sub_div "by" [.integer Int64.minValue, .integer (-1)] 2
  obtain ⟨-, -, -, hfloat, -⟩ := hintegers _ _ rfl
  obtain ⟨-, hless, -⟩ := run_sub_div "less" [.integer Int64.minValue, .integer 1] 2
  obtain ⟨htext, -⟩ := run_sub_div "by" [.text "a", .integer 0] 2
  obtain ⟨hboolean, -⟩ := run_sub_div "less" [.boolean true, .text "a"] 2
  obtain ⟨hsecond, -⟩ := run_sub_div "less" [.float 1, .text "a"] 2
  obtain ⟨harity, -⟩ := run_sub_div "by" [.text "a"] 1
  refine ⟨hfloat (by decide) mul_neg_one_ne_minValue, (hless _ _ rfl).1.2 (by decide), ?_, ?_, ?_,
    (harity div (.inr rfl)).1 (by decide)⟩
  · exact (htext div (.inr rfl)).2 [] (.text "a") [.integer 0] rfl rfl (by simp) (Value.not_isNumber_text "a")
  · exact (hboolean sub (.inl rfl)).2 [] (.boolean true) [.text "a"] rfl rfl (by simp) (Value.not_isNumber_boolean true)
  · refine (hsecond sub (.inl rfl)).2 [.float 1] (.text "a") [] rfl rfl ?_ (Value.not_isNumber_text "a")
    rintro _ (_ | ⟨_, ⟨⟩⟩)
    exact Number.isNumber_toValue (.float 1)

end Builtin

end CallExpr

import CallExpr.Proofs.Promotion
import Mathlib.Data.List.Induction

/-!
# Sums and products, value by value

* `Value.IsNumber`: the values that can be combined. The others are texts and truth values (`Value.not_isNumber_iff`).
* `Operation.FailsAt`: the value that ends a sum or product, and the failure that it ends with.
* `Operation.Combined`: the result, as the first such value says; without one it is a number.
* `Operation.combineAll_concat`: one more value is combined with the result so far.
* `Operation.combined_combineAll`, `Operation.Combined.unique`: the values are combined to this result and to no
  other, by induction on the values from the left.
* `Builtin.combined_iff`: the functions for sums and for products end with this result.
-/

namespace CallExpr

/-- The value is an integer or a double. -/
def Value.IsNumber (v : Value) : Prop :=
  ∃ a : Number, v = a.toValue

theorem Number.isNumber_toValue (a : Number) : a.toValue.IsNumber := ⟨a, rfl⟩

namespace Value

theorem not_isNumber_text (s : String) : ¬ (text s).IsNumber := by
  rintro ⟨_ | _, ⟨⟩⟩

theorem not_isNumber_boolean (b : Bool) : ¬ (boolean b).IsNumber := by
  rintro ⟨_ | _, ⟨⟩⟩

/-- A value that is no number is a text or a truth value. -/
theorem not_isNumber_iff {v : Value} : ¬ v.IsNumber ↔ (∃ s, v = text s) ∨ ∃ b, v = boolean b := by
  constructor
  · intro h
    cases v with
    | integer n => exact absurd (Number.isNumber_toValue (.integer n)) h
    | float x => exact absurd (Number.isNumber_toValue (.float x)) h
    | text s => exact .inl ⟨s, rfl⟩
    | boolean b => exact .inr ⟨b, rfl⟩
  · rintro (⟨s, rfl⟩ | ⟨b, rfl⟩)
    · exact not_isNumber_text s
    · exact not_isNumber_boolean b

end Value

namespace Number

theorem toValue_injective : Function.Injective toValue := by
  intro a b h
  cases a <;> cases b <;> cases h <;> rfl

theorem ofValue_of_not_isNumber {v : Value} (h : ¬ v.IsNumber) (function : String) :
    ofValue function v = .error (.kind function v.kind) := by
  rcases Value.not_isNumber_iff.mp h with ⟨s, rfl⟩ | ⟨b, rfl⟩ <;> rfl

end Number

namespace Operation

section Specification

variable (op : Operation) (total : List Int → Int) (function : String) (vs : List Value)

/-- The value at `k` ends the combination: it is no number, or all values so far are integers and their total is out
of range. -/
inductive FailsAt (k : Nat) : Failure → Prop where
  | kind {v : Value} (hv : vs[k]? = some v) (hnumber : ¬ v.IsNumber) :
      FailsAt k (.kind function v.kind)
  | overflow {ns : List Int64} (hns : vs.take (k + 1) = ns.map .integer) (hlength : ns.length = k + 1)
      (hrange : ¬ InRange (total (ns.map Int64.toInt))) : FailsAt k (.overflow function)

/-- What values are combined to. -/
inductive Combined : Except Failure Value → Prop where
  | none (hvs : vs = []) : Combined (.error (.arity function (.atLeast 1) 0))
  /-- The first value that ends the combination. -/
  | failed {k : Nat} {failure : Failure} (hfails : FailsAt total function vs k failure)
      (hfirst : ∀ j < k, ∀ failure', ¬ FailsAt total function vs j failure') : Combined (.error failure)
  /-- Integers have an exact total. -/
  | integer {ns : List Int64} {n : Int64} (hvs : vs = ns.map .integer) (hne : ns ≠ [])
      (hnone : ∀ k failure, ¬ FailsAt total function vs k failure) (hn : n.toInt = total (ns.map Int64.toInt)) :
      Combined (.ok (.integer n))
  /-- The integers before the first double have an exact total; the rest is done with doubles. -/
  | float {ns : List Int64} {x : Float} {rest : List Number}
      (hvs : vs = ns.map .integer ++ .float x :: rest.map Number.toValue)
      (hnone : ∀ k failure, ¬ FailsAt total function vs k failure) :
      Combined (.ok (.float (op.promoted ns x rest)))

end Specification

variable {op : Operation} {total : List Int → Int} {function : String} {vs : List Value} {v : Value} {k : Nat}
  {failure failure' : Failure} {r r' : Except Failure Value}

/-! ## The value that ends a combination -/

theorem FailsAt.lt_length (h : FailsAt total function vs k failure) : k < vs.length := by
  cases h with
  | kind hv => exact (List.getElem?_eq_some_iff.mp hv).1
  | overflow hns hlength =>
    have hle := congrArg List.length hns
    simp only [List.length_take, List.length_map] at hle
    omega

/-- A value ends the combination with one failure only. -/
theorem FailsAt.unique (h : FailsAt total function vs k failure) (h' : FailsAt total function vs k failure') :
    failure = failure' := by
  -- An integer is a number.
  have hexclusive : ∀ {v : Value} {ns : List Int64}, vs[k]? = some v → ¬ v.IsNumber →
      vs.take (k + 1) = ns.map .integer → False := by
    intro v ns hv hnumber hns
    have hmem : v ∈ vs.take (k + 1) := List.mem_of_getElem? (by rw [List.getElem?_take_of_lt k.lt_succ_self, hv])
    rw [hns] at hmem
    obtain ⟨n, -, rfl⟩ := List.mem_map.mp hmem
    exact hnumber (Number.isNumber_toValue (.integer n))
  cases h with
  | kind hv hnumber =>
    cases h' with
    | kind hv' =>
      obtain rfl := Option.some.inj (hv.symm.trans hv')
      rfl
    | overflow hns => exact (hexclusive hv hnumber hns).elim
  | overflow hns =>
    cases h' with
    | kind hv hnumber => exact (hexclusive hv hnumber hns).elim
    | overflow => rfl

/-- Later values do not matter. -/
theorem failsAt_append (hk : k < vs.length) (ws : List Value) :
    FailsAt total function (vs ++ ws) k failure ↔ FailsAt total function vs k failure := by
  have hget : (vs ++ ws)[k]? = vs[k]? := List.getElem?_append_left hk
  have htake : (vs ++ ws).take (k + 1) = vs.take (k + 1) := List.take_append_of_le_length hk
  constructor
  · rintro (⟨hv, hnumber⟩ | ⟨hns, hlength, hrange⟩)
    · exact .kind (hget ▸ hv) hnumber
    · exact .overflow (htake ▸ hns) hlength hrange
  · rintro (⟨hv, hnumber⟩ | ⟨hns, hlength, hrange⟩)
    · exact .kind (hget ▸ hv) hnumber
    · exact .overflow (htake ▸ hns) hlength hrange

/-- The last value ends the combination if it is no number. -/
theorem failsAt_of_not_isNumber (h : ¬ v.IsNumber) :
    FailsAt total function (vs ++ [v]) vs.length (.kind function v.kind) :=
  .kind List.getElem?_concat_length h

/-- A number that comes last can only take the total of integers out of range. -/
theorem failsAt_last {a : Number} (h : FailsAt total function (vs ++ [a.toValue]) vs.length failure) :
    ∃ (ns : List Int64) (n : Int64), vs = ns.map .integer ∧ a = .integer n ∧
      ¬ InRange (total (ns.map Int64.toInt ++ [n.toInt])) := by
  cases h with
  | kind hv hnumber =>
    rw [List.getElem?_concat_length] at hv
    exact absurd (Option.some.inj hv ▸ a.isNumber_toValue) hnumber
  | @overflow ns hns hlength hrange =>
    rw [List.take_of_length_le (by simp)] at hns
    obtain ⟨ms, last, rfl, hms, hlast⟩ := List.map_eq_append_iff.mp hns.symm
    obtain ⟨n, rfl, hn⟩ := List.map_eq_singleton_iff.mp hlast
    rw [List.map_append, List.map_singleton] at hrange
    exact ⟨ms, n, hms.symm, Number.toValue_eq_integer_iff.mp hn.symm, hrange⟩

/-- If neither the values nor one more end the combination, nothing does. -/
theorem not_failsAt_concat (h : ∀ k failure, ¬ FailsAt total function vs k failure)
    (hlast : ∀ failure, ¬ FailsAt total function (vs ++ [v]) vs.length failure) (k : Nat) (failure : Failure) :
    ¬ FailsAt total function (vs ++ [v]) k failure := by
  intro hk
  have hlt := hk.lt_length
  rw [List.length_append, List.length_singleton] at hlt
  by_cases heq : k = vs.length
  · exact hlast failure (heq ▸ hk)
  · exact h k failure ((failsAt_append (by omega) [v]).mp hk)

/-- What ends the combination first still does so if more values follow. -/
theorem Combined.failed_concat (h : FailsAt total function vs k failure)
    (hfirst : ∀ j < k, ∀ failure', ¬ FailsAt total function vs j failure') :
    op.Combined total function (vs ++ [v]) (.error failure) := by
  have hlt := h.lt_length
  refine .failed ((failsAt_append hlt [v]).mpr h) fun j hj failure' hfails => ?_
  exact hfirst j hj failure' ((failsAt_append (by omega) [v]).mp hfails)

/-- The last value is the first to end the combination. -/
theorem Combined.failed_last (h : ∀ k failure, ¬ FailsAt total function vs k failure)
    (hlast : FailsAt total function (vs ++ [v]) vs.length failure) :
    op.Combined total function (vs ++ [v]) (.error failure) := by
  refine .failed hlast fun j hj failure' hfails => ?_
  exact h j failure' ((failsAt_append hj [v]).mp hfails)

/-- A result without a failure is a number, and nothing ended the combination. -/
theorem Combined.of_ok (h : op.Combined total function vs (.ok v)) :
    v.IsNumber ∧ vs ≠ [] ∧ ∀ k failure, ¬ FailsAt total function vs k failure := by
  cases h with
  | @integer ns n hvs hne hnone hn => exact ⟨Number.isNumber_toValue (.integer n), by simpa [hvs] using hne, hnone⟩
  | float hvs hnone => exact ⟨Number.isNumber_toValue (.float _), by simp [hvs], hnone⟩

/-! ## One more value -/

/-- Combines two values. -/
def combine (op : Operation) (function : String) (acc v : Value) : Except Failure Value := do
  let a ← Number.ofValue function acc
  let b ← Number.ofValue function v
  return (← op.apply function a b).toValue

theorem combine_toValue (op : Operation) (function : String) (a b : Number) :
    op.combine function a.toValue b.toValue = (op.apply function a b).map Number.toValue := by
  rw [combine, Number.ofValue_toValue, Number.ofValue_toValue]
  change (op.apply function a b).bind _ = _
  cases op.apply function a b <;> rfl

theorem combine_of_not_isNumber (op : Operation) (function : String) (a : Number) (h : ¬ v.IsNumber) :
    op.combine function a.toValue v = .error (.kind function v.kind) := by
  rw [combine, Number.ofValue_toValue, Number.ofValue_of_not_isNumber h]
  rfl

theorem combineFrom_concat (op : Operation) (function : String) (a : Number) (vs : List Value) (v : Value) :
    (op.combineFrom function a (vs ++ [v])).map Number.toValue =
      (op.combineFrom function a vs).bind fun acc => op.combine function acc.toValue v := by
  induction vs generalizing a with
  | nil =>
    simp only [List.nil_append, combineFrom, combine, Number.ofValue_toValue]
    cases hv : Number.ofValue function v with
    | error e => rfl
    | ok b => cases h : op.apply function a b <;> simp [bind, Except.bind, h] <;> rfl
  | cons w vs ih =>
    simp only [List.cons_append, combineFrom]
    cases hw : Number.ofValue function w with
    | error e => rfl
    | ok b =>
      simp only [bind, Except.bind]
      cases op.apply function a b with
      | error e => rfl
      | ok acc => exact ih acc

theorem combineAll_concat (op : Operation) (function : String) (hne : vs ≠ []) (v : Value) :
    Arithmetic.combineAll op function (vs ++ [v]) =
      (Arithmetic.combineAll op function vs).bind fun acc => op.combine function acc v := by
  obtain ⟨w, vs, rfl⟩ := List.exists_cons_of_ne_nil hne
  by_cases hw : w.IsNumber
  · obtain ⟨a, rfl⟩ := hw
    rw [List.cons_append, Arithmetic.combineAll_cons, Arithmetic.combineAll_cons, combineFrom_concat]
    cases op.combineFrom function a vs <;> rfl
  · have herror : ∀ ws, Arithmetic.combineAll op function (w :: ws) = .error (.kind function w.kind) := by
      intro ws
      rw [Arithmetic.combineAll, Number.ofValue_of_not_isNumber hw]
      rfl
    rw [List.cons_append, herror, herror]
    rfl

/-- The total of integers is what they are combined to exactly. -/
def Totals (op : Operation) (total : List Int → Int) : Prop :=
  ∀ n ns, total (n :: ns) = ns.foldl op.exact n

theorem Totals.concat (htotal : op.Totals total) {ns : List Int} (hne : ns ≠ []) (n : Int) :
    total (ns ++ [n]) = op.exact (total ns) n := by
  obtain ⟨m, ns, rfl⟩ := List.exists_cons_of_ne_nil hne
  rw [List.cons_append, htotal, htotal, List.foldl_concat]

theorem totals_sum : sum.Totals List.sum := by
  intro n ns
  rw [List.sum_eq_foldl, List.foldl_cons, zero_add]
  rfl

theorem totals_product : product.Totals List.prod := by
  intro n ns
  rw [List.prod_eq_foldl, List.foldl_cons, one_mul]
  rfl

/-- A number alone does not end the combination. -/
theorem not_failsAt_singleton (htotal : op.Totals total) (function : String) (a : Number) (k : Nat)
    (failure : Failure) : ¬ FailsAt total function [a.toValue] k failure := by
  have hnil : ∀ k failure, ¬ FailsAt total function [] k failure := fun k failure h => by simpa using h.lt_length
  refine not_failsAt_concat hnil (fun failure h => ?_) k failure
  obtain ⟨ns, n, hns, rfl, hrange⟩ := failsAt_last h
  obtain rfl := List.map_eq_nil_iff.mp hns.symm
  rw [List.map_nil, List.nil_append, htotal n.toInt []] at hrange
  exact hrange (inRange_toInt n)

/-- Nor does a number that comes first. -/
theorem not_failsAt_zero (htotal : op.Totals total) (function : String) (a : Number) (vs : List Value)
    (failure : Failure) : ¬ FailsAt total function (a.toValue :: vs) 0 failure := fun h =>
  not_failsAt_singleton htotal function a 0 failure ((failsAt_append (Nat.succ_pos 0) vs).mp h)

/-- After a number that comes first, the next value can be the first to end the combination. -/
theorem Combined.failed_second (htotal : op.Totals total) (a : Number)
    (hfails : FailsAt total function (a.toValue :: vs) 1 failure) :
    op.Combined total function (a.toValue :: vs) (.error failure) := by
  refine .failed hfails fun j hj failure' => ?_
  obtain rfl := Nat.lt_one_iff.mp hj
  exact not_failsAt_zero htotal function a vs failure'

/-- One value. -/
theorem combined_singleton (htotal : op.Totals total) (function : String) (v : Value) :
    op.Combined total function [v] (Arithmetic.combineAll op function [v]) := by
  by_cases hv : v.IsNumber
  · obtain ⟨a, rfl⟩ := hv
    have hnone := not_failsAt_singleton htotal function a
    cases a with
    | integer n =>
      have hvs : [Value.integer n] = [n].map .integer := rfl
      exact .integer hvs (List.cons_ne_nil _ _) hnone (by simp [htotal n.toInt []])
    | float x =>
      have hfloat : op.Combined total function [.float x] (.ok (.float (op.promoted [] x []))) := .float rfl hnone
      exact hfloat
  · rw [Arithmetic.combineAll, Number.ofValue_of_not_isNumber hv]
    exact .failed (.kind rfl hv) fun j hj => absurd hj (Nat.not_lt_zero j)

/-- Integers and one more. Their total is in range, or this one ends the combination. -/
theorem combined_integer {ns : List Int64} {n : Int64} (htotal : op.Totals total) (hne : ns ≠ [])
    (hnone : ∀ k failure, ¬ FailsAt total function (ns.map .integer) k failure)
    (hn : n.toInt = total (ns.map Int64.toInt)) (m : Int64) :
    op.Combined total function (ns.map .integer ++ [Number.toValue (.integer m)])
      ((Number.narrow function (op.exact n.toInt m.toInt)).map Number.toValue) := by
  have hexact : total (ns.map Int64.toInt ++ [m.toInt]) = op.exact n.toInt m.toInt := by
    rw [htotal.concat (by simpa using hne), hn]
  have hvs : ns.map Value.integer ++ [Number.toValue (.integer m)] = (ns ++ [m]).map .integer := by
    simp [Number.toValue]
  by_cases hrange : InRange (op.exact n.toInt m.toInt)
  · obtain ⟨l, hl, hvalue⟩ := Number.exists_narrow hrange function
    rw [hl]
    refine .integer hvs (by simp) (not_failsAt_concat hnone fun failure h => ?_) (by simp [hvalue, hexact])
    obtain ⟨ns', m', hns, hm, hout⟩ := failsAt_last h
    obtain rfl := List.map_injective_iff.mpr (fun _ _ => Value.integer.inj) hns
    obtain rfl := Number.integer.inj hm
    exact hout (hexact ▸ hrange)
  · rw [Number.narrow_of_not_inRange hrange]
    have htake : (ns.map Value.integer ++ [Number.toValue (.integer m)]).take ((ns.map Value.integer).length + 1) =
        (ns ++ [m]).map .integer := by rw [List.take_of_length_le (by simp), hvs]
    exact .failed_last hnone (.overflow htake (by simp) (by simpa [hexact] using hrange))

/-- Integers and a first double. -/
theorem combined_first_float {ns : List Int64} {n : Int64} (htotal : op.Totals total) (hne : ns ≠ [])
    (hnone : ∀ k failure, ¬ FailsAt total function (ns.map .integer) k failure)
    (hn : n.toInt = total (ns.map Int64.toInt)) (x : Float) :
    op.Combined total function (ns.map .integer ++ [Number.toValue (.float x)])
      (.ok (.float (op.rounded (floatOfInt64 n) x))) := by
  have hpromoted : op.rounded (floatOfInt64 n) x = op.promoted ns x [] := by
    obtain ⟨first, ns, rfl⟩ := List.exists_cons_of_ne_nil hne
    rw [promoted, floatOfInt64, hn, List.map_cons, htotal]
    rfl
  rw [hpromoted]
  refine .float rfl (not_failsAt_concat hnone fun failure h => ?_)
  obtain ⟨_, _, _, hx, _⟩ := failsAt_last h
  cases hx

/-- Numbers with a double among them, and one more number. -/
theorem combined_float {ns : List Int64} {x : Float} {rest : List Number}
    (hnone : ∀ k failure, ¬ FailsAt total function (ns.map .integer ++ .float x :: rest.map Number.toValue) k failure)
    (a : Number) :
    op.Combined total function ((ns.map .integer ++ .float x :: rest.map Number.toValue) ++ [a.toValue])
      (op.combine function (.float (op.promoted ns x rest)) a.toValue) := by
  have hresult : op.combine function (.float (op.promoted ns x rest)) a.toValue =
      .ok (.float (op.promoted ns x (rest ++ [a]))) := by
    have hpromoted : op.promoted ns x (rest ++ [a]) = op.rounded (op.promoted ns x rest) a.toFloat := by
      simp [promoted]
    rw [hpromoted]
    exact op.combine_toValue function (.float (op.promoted ns x rest)) a
  rw [hresult]
  refine .float (by simp) (not_failsAt_concat hnone fun failure h => ?_)
  obtain ⟨ms, n, hms, _, _⟩ := failsAt_last h
  have hmem : Value.float x ∈ ms.map Value.integer := hms ▸ by simp
  simp at hmem

/-- **The first value that ends the combination decides**, else the numbers are combined. -/
theorem combined_combineAll (htotal : op.Totals total) (function : String)
    (vs : List Value) : op.Combined total function vs (Arithmetic.combineAll op function vs) := by
  induction vs using List.reverseRecOn with
  | nil => exact .none rfl
  | append_singleton vs v ih =>
    by_cases hne : vs = []
    · subst hne
      exact combined_singleton htotal function v
    · rw [combineAll_concat op function hne]
      generalize Arithmetic.combineAll op function vs = r at ih
      -- A failure stays as it is; after a number the last value decides.
      cases r with
      | error failure =>
        cases ih with
        | none hvs => exact absurd hvs hne
        | failed hfails hfirst => exact .failed_concat hfails hfirst
      | ok acc =>
        by_cases hv : v.IsNumber
        · obtain ⟨a, rfl⟩ := hv
          cases ih with
          | @integer ns n hvs hns hnone hn =>
            subst hvs
            have hcombine := op.combine_toValue function (.integer n) a
            rw [Number.toValue] at hcombine
            simp only [Except.bind, hcombine]
            cases a with
            | integer m => exact combined_integer htotal hns hnone hn m
            | float x => exact combined_first_float htotal hns hnone hn x
          | float hvs hnone =>
            subst hvs
            exact combined_float hnone a
        · obtain ⟨⟨acc, rfl⟩, -, hnone⟩ := ih.of_ok
          simp only [Except.bind, combine_of_not_isNumber op function acc hv]
          exact .failed_last hnone (failsAt_of_not_isNumber hv)

/-! ## One result only -/

/-- The first double of a list of numbers. -/
theorem split_unique {ns ns' : List Int64} {x x' : Float} {rest rest' : List Number}
    (h : ns.map Value.integer ++ .float x :: rest.map Number.toValue =
      ns'.map Value.integer ++ .float x' :: rest'.map Number.toValue) : ns = ns' ∧ x = x' ∧ rest = rest' := by
  induction ns generalizing ns' with
  | nil =>
    cases ns' with
    | nil =>
      obtain ⟨hx, hrest⟩ := List.cons.inj h
      exact ⟨rfl, Value.float.inj hx, List.map_injective_iff.mpr Number.toValue_injective hrest⟩
    | cons n' ns' => cases (List.cons.inj h).1
  | cons n ns ih =>
    cases ns' with
    | nil => cases (List.cons.inj h).1
    | cons n' ns' =>
      obtain ⟨hn, h⟩ := List.cons.inj h
      obtain ⟨rfl, rfl, rfl⟩ := ih h
      rw [Value.integer.inj hn]
      exact ⟨rfl, rfl, rfl⟩

theorem Combined.unique_ok {w : Value} (h : op.Combined total function vs (.ok v))
    (h' : op.Combined total function vs (.ok w)) : v = w := by
  have hmixed : ∀ {ns ns' : List Int64} {x : Float} {rest : List Number}, vs = ns.map .integer →
      vs = ns'.map .integer ++ .float x :: rest.map Number.toValue → False := by
    intro ns ns' x rest hvs hvs'
    have hmem : Value.float x ∈ ns.map Value.integer := by simp [← hvs, hvs']
    simp at hmem
  cases h with
  | integer hvs _ _ hn =>
    cases h' with
    | integer hvs' _ _ hn' =>
      obtain rfl := List.map_injective_iff.mpr (fun _ _ => Value.integer.inj) (hvs.symm.trans hvs')
      rw [Int64.toInt_inj.mp (hn.trans hn'.symm)]
    | float hvs' => exact (hmixed hvs hvs').elim
  | float hvs =>
    cases h' with
    | integer hvs' => exact (hmixed hvs' hvs).elim
    | float hvs' =>
      obtain ⟨rfl, rfl, rfl⟩ := split_unique (hvs.symm.trans hvs')
      rfl

theorem Combined.unique_error (h : op.Combined total function vs (.error failure))
    (h' : op.Combined total function vs (.error failure')) : failure = failure' := by
  cases h with
  | none hvs =>
    cases h' with
    | none => rfl
    | failed hfails =>
      subst hvs
      exact absurd hfails.lt_length (Nat.not_lt_zero _)
  | @failed k _ hfails hfirst =>
    cases h' with
    | none hvs =>
      subst hvs
      exact absurd hfails.lt_length (Nat.not_lt_zero _)
    | @failed k' _ hfails' hfirst' =>
      rcases Nat.lt_trichotomy k k' with hlt | rfl | hlt
      · exact absurd hfails (hfirst' k hlt _)
      · exact hfails.unique hfails'
      · exact absurd hfails' (hfirst k' hlt _)

theorem Combined.not_error_of_ok (h : op.Combined total function vs (.ok v))
    (h' : op.Combined total function vs (.error failure)) : False := by
  obtain ⟨-, hne, hnone⟩ := h.of_ok
  cases h' with
  | none hvs => exact hne hvs
  | failed hfails => exact hnone _ _ hfails

/-- **Values are combined to one result only.** -/
theorem Combined.unique (h : op.Combined total function vs r) (h' : op.Combined total function vs r') : r = r' := by
  cases r with
  | error failure =>
    cases r' with
    | error failure' => rw [h.unique_error h']
    | ok w => exact (h'.not_error_of_ok h).elim
  | ok v =>
    cases r' with
    | error failure' => exact (h.not_error_of_ok h').elim
    | ok w => rw [h.unique_ok h']

end Operation

namespace Builtin

/-- **Sums and products, completely.** Whatever name the function is called by and whatever the values are, it ends
with the result that they are combined to: without values it fails, else it fails at the first value that is no number
or takes the exact sum or product of integers out of range, else it has this sum or product, or a double if there is one
among the values. -/
theorem combined_iff (b : Builtin) (op : Operation) (total : List Int → Int)
    (hb : b = add ∧ op = .sum ∧ total = List.sum ∨ b = mul ∧ op = .product ∧ total = List.prod) (name : String)
    (vs : List Value) (n : Nat) :
    ∃ r, b.behaviour.run name vs n = .done (r.mapError .failed) ∧ ∀ r', op.Combined total name vs r' ↔ r' = r := by
  have hspec : ∀ r', op.Combined total name vs r' ↔ r' = Arithmetic.combineAll op name vs := by
    have htotal : op.Totals total := by
      rcases hb with ⟨-, rfl, rfl⟩ | ⟨-, rfl, rfl⟩
      · exact Operation.totals_sum
      · exact Operation.totals_product
    have hcombined := Operation.combined_combineAll htotal name vs
    exact fun r' => ⟨fun h => h.unique hcombined, fun h => h ▸ hcombined⟩
  refine ⟨_, ?_, hspec⟩
  rcases hb with ⟨rfl, rfl, -⟩ | ⟨rfl, rfl, -⟩ <;> rfl

/-- The product of the first two is out of range before the text is reached; a truth value and a text are found after a
number, and the first of them is the one that counts. -/
theorem combined_iff_overflow :
    mul.behaviour.run "times" [.integer 4611686018427387904, .integer 2, .text "a"] 3 =
        .done (.error (.failed (.overflow "times"))) ∧
      add.behaviour.run "plus" [.integer 1, .boolean true, .text "a"] 3 =
        .done (.error (.failed (.kind "plus" .boolean))) ∧
      add.behaviour.run "plus" [.float 1, .text "a", .boolean true] 3 =
        .done (.error (.failed (.kind "plus" .text))) := by
  have hns : [Value.integer 4611686018427387904, .integer 2, .text "a"].take 2 =
      [4611686018427387904, 2].map .integer := rfl
  have htimes : Operation.FailsAt List.prod "times" [.integer 4611686018427387904, .integer 2, .text "a"] 1
      (.overflow "times") := .overflow hns rfl (by decide)
  refine ⟨?_, ?_, ?_⟩
  · obtain ⟨r, hrun, hr⟩ := combined_iff mul .product List.prod (.inr ⟨rfl, rfl, rfl⟩) "times"
      [.integer 4611686018427387904, .integer 2, .text "a"] 3
    obtain rfl := (hr _).mp (.failed_second Operation.totals_product (.integer 4611686018427387904) htimes)
    exact hrun
  · obtain ⟨r, hrun, hr⟩ := combined_iff add .sum List.sum (.inl ⟨rfl, rfl, rfl⟩) "plus"
      [.integer 1, .boolean true, .text "a"] 3
    obtain rfl := (hr _).mp (.failed_second Operation.totals_sum (.integer 1)
      (.kind rfl (Value.not_isNumber_boolean true)))
    exact hrun
  · obtain ⟨r, hrun, hr⟩ := combined_iff add .sum List.sum (.inl ⟨rfl, rfl, rfl⟩) "plus"
      [.float 1, .text "a", .boolean true] 3
    obtain rfl := (hr _).mp (.failed_second Operation.totals_sum (.float 1) (.kind rfl (Value.not_isNumber_text "a")))
    exact hrun

end Builtin

end CallExpr

import CallExpr.Eval.Builtin
import CallExpr.Proofs.Activations
import Mathlib.Algebra.BigOperators.Group.List.Basic
import Mathlib.Algebra.Order.Field.Rat
import Mathlib.Data.List.Forall2
import Mathlib.Data.Rat.Cast.Lemmas

/-!
# Exact arithmetic

* `Builtin.onRationals?`: what an arithmetic function does with rational numbers.
* `Builtin.integers_of_integer`: if an arithmetic function returns an integer, then it got integers only, and does the
  same with them as rational numbers.
* `Environment.Exact`: the exact value of an expression. Arithmetic calls are carried out with rational numbers; below
  them are leaves.
* `Environment.evaluateAt_exact`: an integer that an expression is evaluated to is its exact value, and no operand in
  the expression was a double.
-/

namespace CallExpr

/-- The integer is in range, so nothing is lost. -/
theorem toInt_of_int64? {n : Int} {k : Int64} (h : int64? n = some k) : k.toInt = n := by
  unfold int64? at h
  split at h
  · next hrange =>
    obtain rfl := Option.some.inj h
    have hmin : Int64.minValue.toInt = -2 ^ 63 := by decide
    have hmax : Int64.maxValue.toInt = 2 ^ 63 - 1 := by decide
    apply Int64.toInt_ofInt_of_le <;> omega
  · cases h

theorem bind_eq_ok_iff_of_except {ε α β : Type} {x : Except ε α} {f : α → Except ε β} {b : β} :
    x >>= f = .ok b ↔ ∃ a, x = .ok a ∧ f a = .ok b := by
  cases x <;> simp [bind, Except.bind]

/-! ## Numbers -/

section Numbers

variable {function : String} {a b acc : Number} {v : Value} {vs : List Value} {n : Int64} {op : Operation}

theorem Number.toValue_eq_integer_iff : a.toValue = .integer n ↔ a = .integer n := by
  cases a <;> simp [toValue]

theorem Number.ofValue_eq_integer_iff : ofValue function v = .ok (.integer n) ↔ v = .integer n := by
  cases v <;> simp [ofValue]

/-- Only two integers are combined to an integer, and exactly. -/
theorem Operation.integers_of_apply (h : op.apply function a b = .ok (.integer n)) :
    ∃ x y, a = .integer x ∧ b = .integer y ∧ n.toInt = op.exact x.toInt y.toInt := by
  cases a with
  | float x => cases h
  | integer x =>
    cases b with
    | float y => cases h
    | integer y =>
      unfold apply Number.narrow at h
      dsimp only at h
      split at h
      · next k hk =>
        cases h
        exact ⟨x, y, rfl, rfl, toInt_of_int64? hk⟩
      · cases h

theorem Operation.integers_of_combineFrom (h : op.combineFrom function acc vs = .ok (.integer n)) :
    ∃ (x : Int64) (ys : List Int64), acc = .integer x ∧ vs = ys.map .integer ∧
      n.toInt = (ys.map Int64.toInt).foldl op.exact x.toInt := by
  induction vs generalizing acc with
  | nil => exact ⟨n, [], Except.ok.inj h, rfl, rfl⟩
  | cons v vs ih =>
    rw [combineFrom, bind_eq_ok_iff_of_except] at h
    obtain ⟨b, hb, h⟩ := h
    obtain ⟨acc', hacc, h⟩ := bind_eq_ok_iff_of_except.mp h
    obtain ⟨z, ys, rfl, rfl, hn⟩ := ih h
    obtain ⟨x, y, rfl, rfl, hz⟩ := integers_of_apply hacc
    obtain rfl := Number.ofValue_eq_integer_iff.mp hb
    exact ⟨x, y :: ys, rfl, rfl, by rw [hn, hz]; rfl⟩

namespace Arithmetic

theorem integers_of_combineAll (h : combineAll op function vs = .ok (.integer n)) :
    ∃ (x : Int64) (ys : List Int64), vs = (x :: ys).map .integer ∧
      n.toInt = (ys.map Int64.toInt).foldl op.exact x.toInt := by
  cases vs with
  | nil => cases h
  | cons v vs =>
    obtain ⟨first, hfirst, h⟩ := bind_eq_ok_iff_of_except.mp h
    obtain ⟨last, hlast, h⟩ := bind_eq_ok_iff_of_except.mp h
    obtain rfl := Number.toValue_eq_integer_iff.mp (Except.ok.inj h)
    obtain ⟨x, ys, rfl, rfl, hn⟩ := Operation.integers_of_combineFrom hlast
    obtain rfl := Number.ofValue_eq_integer_iff.mp hfirst
    exact ⟨x, ys, rfl, hn⟩

theorem two_eq_ok_iff {v w : Value} : two function vs = .ok (v, w) ↔ vs = [v, w] := by
  unfold two
  split <;> simp_all

/-- Two values that are integers as numbers. -/
theorem eq_of_twoNumbers {x y : Int64} (h : twoNumbers function vs = .ok (.integer x, .integer y)) :
    vs = [x, y].map .integer := by
  obtain ⟨⟨v, w⟩, hvs, h⟩ := bind_eq_ok_iff_of_except.mp h
  obtain ⟨a, ha, h⟩ := bind_eq_ok_iff_of_except.mp h
  obtain ⟨b, hb, h⟩ := bind_eq_ok_iff_of_except.mp h
  obtain ⟨rfl, rfl⟩ := Prod.mk.inj (Except.ok.inj h)
  obtain rfl := Number.ofValue_eq_integer_iff.mp ha
  obtain rfl := Number.ofValue_eq_integer_iff.mp hb
  exact two_eq_ok_iff.mp hvs

theorem integers_of_subtract (h : subtract function vs = .ok (.integer n)) :
    ∃ x y : Int64, vs = [x, y].map .integer ∧ n.toInt = x.toInt - y.toInt := by
  obtain ⟨⟨a, b⟩, hnumbers, h⟩ := bind_eq_ok_iff_of_except.mp h
  obtain ⟨c, hc, h⟩ := bind_eq_ok_iff_of_except.mp h
  obtain rfl := Number.toValue_eq_integer_iff.mp (Except.ok.inj h)
  obtain ⟨x, y, rfl, rfl, hn⟩ := Operation.integers_of_apply hc
  exact ⟨x, y, eq_of_twoNumbers hnumbers, hn⟩

/-- A quotient is an integer only if the division leaves no remainder. -/
theorem integers_of_quotient (h : quotient a b = .ok (.integer n)) :
    ∃ x y, a = .integer x ∧ b = .integer y ∧ y.toInt ≠ 0 ∧ n.toInt * y.toInt = x.toInt := by
  cases a with
  | float x => cases h
  | integer x =>
    cases b with
    | float y => cases h
    | integer y =>
      unfold quotient at h
      dsimp only at h
      by_cases hzero : y.toInt = 0
      · rw [if_pos hzero] at h
        cases h
      · rw [if_neg hzero] at h
        by_cases hdvd : y.toInt ∣ x.toInt
        · rw [if_pos hdvd] at h
          split at h
          · next q hq =>
            cases h
            refine ⟨x, y, rfl, rfl, hzero, ?_⟩
            rw [toInt_of_int64? hq, Int.ediv_mul_cancel hdvd]
          · cases h
        · rw [if_neg hdvd] at h
          cases h

theorem integers_of_divide (h : divide function vs = .ok (.integer n)) :
    ∃ x y : Int64, vs = [x, y].map .integer ∧ y.toInt ≠ 0 ∧ n.toInt * y.toInt = x.toInt := by
  obtain ⟨⟨a, b⟩, hnumbers, h⟩ := bind_eq_ok_iff_of_except.mp h
  obtain ⟨c, hc, h⟩ := bind_eq_ok_iff_of_except.mp h
  obtain rfl := Number.toValue_eq_integer_iff.mp (Except.ok.inj h)
  obtain ⟨x, y, rfl, rfl, hzero, hn⟩ := integers_of_quotient hc
  exact ⟨x, y, eq_of_twoNumbers hnumbers, hzero, hn⟩

end Arithmetic

end Numbers

/-! ## Arithmetic functions -/

/-- An integer as a rational number. -/
def rational (n : Int64) : ℚ :=
  n.toInt

theorem cast_foldl {f : Int → Int → Int} {g : ℚ → ℚ → ℚ} (h : ∀ m n : Int, ((f m n : Int) : ℚ) = g m n) (x : Int)
    (ys : List Int64) : (((ys.map Int64.toInt).foldl f x : Int) : ℚ) = (ys.map rational).foldl g x := by
  induction ys generalizing x with
  | nil => rfl
  | cons y ys ih =>
    simp only [List.map_cons, List.foldl_cons]
    rw [ih, h]
    rfl

/-- Integers are combined as the rational numbers that they are. -/
theorem Arithmetic.rationals_of_combineAll {op : Operation} {g : ℚ → ℚ → ℚ}
    (hg : ∀ m n : Int, ((op.exact m n : Int) : ℚ) = g m n) {function : String} {vs : List Value} {n : Int64}
    (h : combineAll op function vs = .ok (.integer n)) :
    ∃ (x : Int64) (ys : List Int64), vs = (x :: ys).map .integer ∧
      rational n = (ys.map rational).foldl g (rational x) := by
  obtain ⟨x, ys, rfl, hn⟩ := integers_of_combineAll h
  refine ⟨x, ys, rfl, ?_⟩
  rw [rational, hn]
  exact cast_foldl hg x.toInt ys

namespace Builtin

/-- What the function does with rational numbers; nothing if it is not arithmetic, or has no value. -/
def onRationals? : Builtin → List ℚ → Option ℚ
  | add, q :: qs => some (q :: qs).sum
  | mul, q :: qs => some (q :: qs).prod
  | sub, [p, q] => some (p - q)
  | div, [p, q] => if q = 0 then none else some (p / q)
  | _, _ => none

/-- The functions for sums, products, differences and quotients. -/
def isArithmetic : Builtin → Bool
  | add | mul | sub | div => true
  | _ => false

/-- **Arithmetic functions are exact.** If such a function returns an integer, then it got integers only, and does the
same with them as rational numbers. -/
theorem integers_of_integer {b : Builtin} (hb : b.isArithmetic = true) :
    ∃ run, b.behaviour = ofValues run ∧ ∀ function vs n, run function vs = .ok (.integer n) →
      ∃ ns : List Int64, vs = ns.map .integer ∧ b.onRationals? (ns.map rational) = some (rational n) := by
  cases b with
  | concat | eq | choose => cases hb
  | add =>
    refine ⟨_, rfl, fun function vs n h => ?_⟩
    obtain ⟨x, ys, rfl, hn⟩ := Arithmetic.rationals_of_combineAll Int.cast_add h
    refine ⟨x :: ys, rfl, ?_⟩
    rw [List.map_cons, onRationals?, List.sum_eq_foldl, List.foldl_cons, zero_add, hn]
  | mul =>
    refine ⟨_, rfl, fun function vs n h => ?_⟩
    obtain ⟨x, ys, rfl, hn⟩ := Arithmetic.rationals_of_combineAll Int.cast_mul h
    refine ⟨x :: ys, rfl, ?_⟩
    rw [List.map_cons, onRationals?, List.prod_eq_foldl, List.foldl_cons, one_mul, hn]
  | sub =>
    refine ⟨_, rfl, fun function vs n h => ?_⟩
    obtain ⟨x, y, rfl, hn⟩ := Arithmetic.integers_of_subtract h
    refine ⟨[x, y], rfl, ?_⟩
    simp only [List.map_cons, List.map_nil, onRationals?, rational, hn, Int.cast_sub]
  | div =>
    refine ⟨_, rfl, fun function vs n h => ?_⟩
    obtain ⟨x, y, rfl, hzero, hn⟩ := Arithmetic.integers_of_divide h
    refine ⟨[x, y], rfl, ?_⟩
    have hcast : (y.toInt : ℚ) ≠ 0 := Int.cast_ne_zero.mpr hzero
    simp only [List.map_cons, List.map_nil, onRationals?, rational, if_neg hcast, ← hn, Int.cast_mul]
    rw [mul_div_cancel_right₀ _ hcast]

/-- What an arithmetic function does with 6 and 3. -/
def probe (b : Builtin) : Script 2 :=
  b.behaviour.run "" [.integer 6, .integer 3] 2

theorem probe_eq {b : Builtin} (hb : b.isArithmetic = true) :
    b.probe = .done (.ok (.integer (if b = add then 9 else if b = mul then 18 else if b = sub then 3 else 2))) := by
  cases b <;> cases hb <;> rfl

/-- Arithmetic functions differ in what they do with 6 and 3. -/
theorem eq_of_behaviour_eq {b b' : Builtin} (hb : b.isArithmetic = true) (hb' : b'.isArithmetic = true)
    (h : b.behaviour = b'.behaviour) : b = b' := by
  have hprobe : b.probe = b'.probe := by rw [probe, h, probe]
  rw [probe_eq hb, probe_eq hb'] at hprobe
  have hinteger := Value.integer.inj (Except.ok.inj (Script.done.inj hprobe))
  revert hinteger
  cases b <;> cases hb <;> cases b' <;> cases hb' <;> decide

end Builtin

/-! ## Expressions -/

theorem forall₂_iff_eq_map {α β γ : Type} {R : α → β → Prop} {f : γ → β} {as : List α} {cs : List γ} {bs : List β}
    (h : List.Forall₂ (fun a c => ∀ b, R a b ↔ b = f c) as cs) : List.Forall₂ R as bs ↔ bs = cs.map f := by
  induction h generalizing bs with
  | nil => rw [List.forall₂_nil_left_iff, List.map_nil]
  | cons ha _ ih =>
    rw [List.forall₂_cons_left_iff, List.map_cons]
    constructor
    · rintro ⟨b, bs, hb, hbs, rfl⟩
      rw [(ha b).mp hb, ih.mp hbs]
    · rintro rfl
      exact ⟨_, _, (ha _).mpr rfl, ih.mpr rfl, rfl⟩

namespace Environment

/-- The entry of the token is a call of this arithmetic function, under some name. -/
def Calls (env : Environment) (s : Store) (t : Token) (b : Builtin) (arguments : List Token) : Prop :=
  b.isArithmetic = true ∧
    ∃ name c, s.get? t = some (.call name arguments) ∧ env.registry.get? name = some c ∧ c.behaviour = b.behaviour

/-- `u` is an operand of the arithmetic call `t`. -/
def Operand (env : Environment) (s : Store) (t u : Token) : Prop :=
  ∃ b arguments, env.Calls s t b arguments ∧ u ∈ arguments

/-- The exact value of an expression. A leaf is a token that is evaluated to an integer, and is not an arithmetic call
itself. -/
inductive Exact (env : Environment) (s : Store) : Token → ℚ → Prop where
  | leaf {t : Token} {n : Int64} (hleaf : ∀ b arguments, ¬ env.Calls s t b arguments)
      (hn : (env.evaluateAt s t).result = .ok (.integer n)) : Exact env s t (rational n)
  | call {t : Token} {b : Builtin} {arguments : List Token} {qs : List ℚ} {q : ℚ}
      (hcall : env.Calls s t b arguments) (hqs : List.Forall₂ (Exact env s) arguments qs)
      (hq : b.onRationals? qs = some q) : Exact env s t q

section Expressions

variable {env : Environment} {s : Store} {t u : Token} {term : Term} {b b' : Builtin}
  {arguments arguments' : List Token} {n : Int64}

theorem Calls.unique (h : env.Calls s t b arguments) (h' : env.Calls s t b' arguments') :
    b = b' ∧ arguments = arguments' := by
  obtain ⟨hb, name, c, he, hc, hbehaviour⟩ := h
  obtain ⟨hb', name', c', he', hc', hbehaviour'⟩ := h'
  obtain ⟨rfl, rfl⟩ := Entry.call.inj (Option.some.inj (he.symm.trans he'))
  obtain rfl := Option.some.inj (hc.symm.trans hc')
  exact ⟨Builtin.eq_of_behaviour_eq hb hb' (hbehaviour.symm.trans hbehaviour'), rfl⟩

theorem Calls.refers (h : env.Calls s t b arguments) (hu : u ∈ arguments) : s.Refers t u := by
  obtain ⟨-, name, c, he, -⟩ := h
  exact ⟨_, he, hu⟩

/-- If an arithmetic call is evaluated to an integer, so are its arguments. -/
theorem Calls.integers (h : env.Calls s t b arguments) (hterm : s.Unfolds t term)
    (hn : (env.evaluateAt s t).result = .ok (.integer n)) :
    ∃ ns : List Int64, List.Forall₂ (fun u m => (env.evaluateAt s u).result = .ok (.integer m)) arguments ns ∧
      b.onRationals? (ns.map rational) = some (rational n) := by
  obtain ⟨hb, name, c, he, hc, hbehaviour⟩ := h
  obtain ⟨run, hrun, hintegers⟩ := Builtin.integers_of_integer hb
  rw [env.evaluateAt_eq_evaluateOnce hterm] at hn
  unfold evaluateOnce at hn
  simp only [he, hc, hbehaviour, hrun, Builtin.ofValues, Strategy.gather, Traced.bind_eq_ok_iff] at hn
  obtain ⟨values, hvalues, -, -, hn⟩ := hn
  have hresult : run name values = .ok (.integer n) := by
    cases hrun : run name values with
    | error failure =>
      rw [hrun] at hn
      cases hn
    | ok value =>
      rw [hrun] at hn
      exact congrArg Except.ok (Except.ok.inj hn)
  obtain ⟨ns, rfl, hexact⟩ := hintegers name values n hresult
  rw [Traced.mapM_eq_ok_iff, List.forall₂_map_right_iff] at hvalues
  exact ⟨ns, hvalues, hexact⟩

/-- **An integer is the exact value of its expression.** -/
theorem exact_iff (hterm : s.Unfolds t term) (hn : (env.evaluateAt s t).result = .ok (.integer n)) {q : ℚ} :
    env.Exact s t q ↔ q = rational n := by
  obtain ⟨depth, hdepth⟩ := id hterm
  induction depth generalizing t term n q with
  | zero => cases hdepth
  | succ depth ih =>
    by_cases hcalls : ∃ b arguments, env.Calls s t b arguments
    · obtain ⟨b, arguments, hcall⟩ := hcalls
      obtain ⟨ns, hns, hexact⟩ := hcall.integers hterm hn
      -- The terms of the arguments have one level less.
      have harguments : List.Forall₂ (fun u m => ∀ q, env.Exact s u q ↔ q = rational m) arguments ns := by
        apply List.forall₂_iff_get.mpr
        refine ⟨hns.length_eq, fun i hi hi' q => ?_⟩
        obtain ⟨_, hu⟩ := Store.exists_unfoldWithin_of_refers hdepth (hcall.refers (List.get_mem arguments ⟨i, hi⟩))
        exact ih ⟨_, hu⟩ (hns.get hi hi') hu
      constructor
      · intro h
        cases h with
        | leaf hleaf => exact absurd hcall (hleaf b arguments)
        | call hcall' hqs hq =>
          obtain ⟨rfl, rfl⟩ := hcall'.unique hcall
          obtain rfl := (forall₂_iff_eq_map harguments).mp hqs
          exact Option.some.inj (hq.symm.trans hexact)
      · rintro rfl
        exact .call hcall ((forall₂_iff_eq_map harguments).mpr rfl) hexact
    · have hleaf : ∀ b arguments, ¬ env.Calls s t b arguments := fun b arguments h => hcalls ⟨b, arguments, h⟩
      constructor
      · intro h
        cases h with
        | leaf _ hm =>
          obtain ⟨rfl⟩ := hn.symm.trans hm
          rfl
        | call hcall => exact absurd hcall (hleaf _ _)
      · rintro rfl
        exact .leaf hleaf hn

/-- The operands of an integer are integers. -/
theorem integer_of_operand (hterm : s.Unfolds t term) (hn : (env.evaluateAt s t).result = .ok (.integer n))
    (h : Relation.ReflTransGen (env.Operand s) t u) :
    ∃ term' m, s.Unfolds u term' ∧ (env.evaluateAt s u).result = .ok (.integer m) := by
  induction h with
  | refl => exact ⟨term, n, hterm, hn⟩
  | tail _ hu ih =>
    obtain ⟨term', m, hterm', hm⟩ := ih
    obtain ⟨b, arguments, hcall, hu⟩ := hu
    obtain ⟨_, hunfold⟩ := Store.exists_unfoldWithin_of_refers hterm'.within_size (hcall.refers hu)
    obtain ⟨ns, hns, -⟩ := hcall.integers hterm' hm
    obtain ⟨i, hi, rfl⟩ := List.getElem_of_mem hu
    exact ⟨_, _, ⟨_, hunfold⟩, hns.get hi (hns.length_eq ▸ hi)⟩

end Expressions

/-- **Integer arithmetic is exact through whole expressions.** Arithmetic calls may be nested in any way above leaves
that are evaluated to integers. If the expression is evaluated to an integer, then it has an exact value, without a
division by zero, and the integer is this value and no other. Once an operand is a double, the expression is not
evaluated to an integer. -/
theorem evaluateAt_exact (env : Environment) {s : Store} {t : Token} {term : Term} (hterm : s.Unfolds t term) :
    (∀ n : Int64, (env.evaluateAt s t).result = .ok (.integer n) → ∀ q : ℚ, env.Exact s t q ↔ q = n.toInt) ∧
    ∀ u x, Relation.ReflTransGen (env.Operand s) t u → (env.evaluateAt s u).result = .ok (.float x) →
      ∀ n, (env.evaluateAt s t).result ≠ .ok (.integer n) := by
  refine ⟨fun n hn q => exact_iff hterm hn, fun u x hu hx n hn => ?_⟩
  obtain ⟨_, m, -, hm⟩ := integer_of_operand hterm hn hu
  rw [hm] at hx
  cases hx

/-- If `x` is 6 and `y` is -3, then `sub(div(x, y), mul(x, y, y))` is evaluated to -56, which is its exact value. The
value of `add(div(y, x), div(y, x))` is not an integer, although the exact one is. -/
theorem evaluateAt_exact_nested :
    let env : Environment := ⟨.withBuiltins, fun name =>
      if name = "x" then some (.integer 6) else if name = "y" then some (.integer (-3)) else none⟩
    let s : Store := ⟨#[.variable "x", .variable "y", .call "div" [⟨0⟩, ⟨1⟩], .call "mul" [⟨0⟩, ⟨1⟩, ⟨1⟩],
      .call "sub" [⟨2⟩, ⟨3⟩], .call "div" [⟨1⟩, ⟨0⟩], .call "add" [⟨5⟩, ⟨5⟩]]⟩
    (env.evaluateAt s ⟨4⟩).result = .ok (.integer (-56)) ∧ (∀ q, env.Exact s ⟨4⟩ q ↔ q = -56) ∧
      ∀ n, (env.evaluateAt s ⟨6⟩).result ≠ .ok (.integer n) := by
  intro env s
  have hoperand : env.Operand s ⟨6⟩ ⟨5⟩ := ⟨.add, _, ⟨rfl, _, _, rfl, rfl, rfl⟩, List.mem_cons_self⟩
  have hsub : s.Unfolds ⟨4⟩ _ := ⟨4, rfl⟩
  have hadd : s.Unfolds ⟨6⟩ _ := ⟨4, rfl⟩
  have hvalue : (env.evaluateAt s ⟨4⟩).result = .ok (.integer (-56)) := rfl
  refine ⟨hvalue, fun q => ?_, (evaluateAt_exact env hadd).2 ⟨5⟩ _ (.single hoperand) rfl⟩
  have hexact := (evaluateAt_exact env hsub).1 (-56) hvalue q
  have hcast : ((-56 : Int64).toInt : ℚ) = -56 := by
    rw [show (-56 : Int64).toInt = -56 from by decide]
    norm_num
  rwa [hcast] at hexact

end Environment

end CallExpr

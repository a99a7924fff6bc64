import CallExpr.Proofs.Exactness

/-!
# Sums and products with doubles

* `Operation.partials`: what integers are combined to on the way.
* `Operation.promoted`: the sum or product if no integer is too large on the way.
* `Operation.combineFrom_of_inRange`, `Operation.combineFrom_of_not_inRange`: integers are combined as integers up to
  the first double, by induction on them.
* `Arithmetic.combineAll_float`: what numbers are combined to, if one of them is a double.
* `Builtin.float_too_late`: a double that comes too late.
-/

namespace CallExpr

variable {op : Operation} {function : String} {n : Int64} {ns : List Int64}

/-- The integer has room in 64 bits. -/
def InRange (n : Int) : Prop :=
  Int64.minValue.toInt ≤ n ∧ n ≤ Int64.maxValue.toInt

instance (n : Int) : Decidable (InRange n) :=
  inferInstanceAs (Decidable (_ ∧ _))

theorem inRange_toInt (n : Int64) : InRange n.toInt :=
  ⟨n.minValue_le_toInt, n.toInt_le⟩

theorem int64?_toInt (n : Int64) : int64? n.toInt = some n := by
  have hn : int64? n.toInt = some (.ofInt n.toInt) := if_pos (inRange_toInt n)
  rw [hn, Int64.ofInt_toInt]

namespace Number

theorem exists_narrow {n : Int} (h : InRange n) (function : String) :
    ∃ k : Int64, narrow function n = .ok (.integer k) ∧ k.toInt = n := by
  have hk : int64? n = some (.ofInt n) := if_pos h
  exact ⟨.ofInt n, by rw [narrow, hk], toInt_of_int64? hk⟩

theorem narrow_of_not_inRange {n : Int} (h : ¬ InRange n) : narrow function n = .error (.overflow function) := by
  have hk : int64? n = none := if_neg h
  rw [narrow, hk]

theorem ofValue_toValue (a : Number) : ofValue function a.toValue = .ok a := by
  cases a <;> rfl

end Number

namespace Operation

/-- What integers are combined to on the way, from left to right. -/
def partials (op : Operation) : List Int64 → List Int
  | [] => []
  | n :: ns => (ns.map Int64.toInt).scanl op.exact n.toInt

/-- Integers combined exactly, and the numbers from the first double on combined with them as doubles. -/
def promoted (op : Operation) (ns : List Int64) (x : Float) (rest : List Number) : Float :=
  let first := match ns with
    | [] => x
    | n :: ns => op.rounded (.ofInt ((ns.map Int64.toInt).foldl op.exact n.toInt)) x
  (rest.map Number.toFloat).foldl op.rounded first

theorem exact_mem_partials (op : Operation) (n k : Int64) (ns : List Int64) :
    op.exact n.toInt k.toInt ∈ op.partials (n :: k :: ns) := by
  cases ns <;> simp [partials]

/-- If two integers are combined to an integer in range, it takes their place. -/
theorem partials_cons_cons {k l : Int64} (h : l.toInt = op.exact n.toInt k.toInt) (ns : List Int64) :
    op.partials (n :: k :: ns) = n.toInt :: op.partials (l :: ns) := by
  rw [partials, partials, h, List.map_cons, List.scanl_cons]

theorem combineFrom_integer (op : Operation) (function : String) (n k : Int64) (vs : List Value) :
    op.combineFrom function (.integer n) (.integer k :: vs) =
      (Number.narrow function (op.exact n.toInt k.toInt)).bind fun acc => op.combineFrom function acc vs := rfl

/-- Once a double is reached, all that follow are taken as doubles. -/
theorem combineFrom_of_float (op : Operation) (function : String) (x : Float) (rest : List Number) :
    op.combineFrom function (.float x) (rest.map Number.toValue) =
      .ok (.float ((rest.map Number.toFloat).foldl op.rounded x)) := by
  induction rest generalizing x with
  | nil => rfl
  | cons a rest ih =>
    rw [List.map_cons, combineFrom, Number.ofValue_toValue]
    exact ih (op.rounded x a.toFloat)

/-- If the integers stay in range, they are combined exactly. -/
theorem combineFrom_of_inRange (h : ∀ m ∈ op.partials (n :: ns), InRange m) (function : String) (x : Float)
    (rest : List Number) :
    op.combineFrom function (.integer n) (ns.map .integer ++ .float x :: rest.map Number.toValue) =
      .ok (.float (op.promoted (n :: ns) x rest)) := by
  induction ns generalizing n with
  | nil => exact combineFrom_of_float op function _ rest
  | cons k ns ih =>
    obtain ⟨l, hl, hvalue⟩ := Number.exists_narrow (h _ (exact_mem_partials op n k ns)) function
    rw [partials_cons_cons hvalue] at h
    have hpromoted : op.promoted (n :: k :: ns) x rest = op.promoted (l :: ns) x rest := by
      rw [promoted, promoted, List.map_cons, List.foldl_cons, hvalue]
    rw [List.map_cons, List.cons_append, combineFrom_integer, hl, hpromoted]
    exact ih (List.forall_mem_cons.mp h).2

/-- Integers that leave the range are an error, whatever comes later. -/
theorem combineFrom_of_not_inRange (h : ∃ m ∈ op.partials (n :: ns), ¬ InRange m) (function : String)
    (vs : List Value) :
    op.combineFrom function (.integer n) (ns.map .integer ++ vs) = .error (.overflow function) := by
  induction ns generalizing n with
  | nil =>
    obtain ⟨m, hm, hrange⟩ := h
    rw [List.mem_singleton.mp hm] at hrange
    exact absurd (inRange_toInt n) hrange
  | cons k ns ih =>
    rw [List.map_cons, List.cons_append, combineFrom_integer]
    by_cases hrange : InRange (op.exact n.toInt k.toInt)
    · obtain ⟨l, hl, hvalue⟩ := Number.exists_narrow hrange function
      rw [partials_cons_cons hvalue] at h
      obtain ⟨m, hm, hout⟩ := h
      rcases List.mem_cons.mp hm with rfl | hm
      · exact absurd (inRange_toInt n) hout
      · rw [hl]
        exact ih ⟨m, hm, hout⟩
    · rw [Number.narrow_of_not_inRange hrange]
      rfl

end Operation

namespace Arithmetic

theorem combineAll_cons (op : Operation) (function : String) (a : Number) (vs : List Value) :
    combineAll op function (a.toValue :: vs) = (op.combineFrom function a vs).map Number.toValue := by
  rw [combineAll, Number.ofValue_toValue]
  change (op.combineFrom function a vs).bind _ = _
  cases op.combineFrom function a vs <;> rfl

theorem combineAll_of_not_inRange (h : ∃ m ∈ op.partials ns, ¬ InRange m) (function : String) (vs : List Value) :
    combineAll op function (ns.map .integer ++ vs) = .error (.overflow function) := by
  cases ns with
  | nil =>
    obtain ⟨m, hm, -⟩ := h
    cases hm
  | cons n ns =>
    have hoverflow := Operation.combineFrom_of_not_inRange h function vs
    exact (combineAll_cons op function (.integer n) _).trans (congrArg (Except.map Number.toValue) hoverflow)

/-- **A double makes the result a double, unless the integers before it leave the range.** Then it comes too late. -/
theorem combineAll_float (op : Operation) (function : String) (ns : List Int64) (x : Float) (rest : List Number) :
    combineAll op function (ns.map .integer ++ .float x :: rest.map Number.toValue) =
      if ∀ m ∈ op.partials ns, InRange m then .ok (.float (op.promoted ns x rest))
      else .error (.overflow function) := by
  by_cases h : ∀ m ∈ op.partials ns, InRange m
  · rw [if_pos h]
    cases ns with
    | nil =>
      have hfloat := op.combineFrom_of_float function x rest
      exact (combineAll_cons op function (.float x) _).trans (congrArg (Except.map Number.toValue) hfloat)
    | cons n ns =>
      have hfloat := Operation.combineFrom_of_inRange h function x rest
      exact (combineAll_cons op function (.integer n) _).trans (congrArg (Except.map Number.toValue) hfloat)
  · have hout : ∃ m ∈ op.partials ns, ¬ InRange m := by simpa using h
    rw [if_neg h, combineAll_of_not_inRange hout]

end Arithmetic

/-- The sum of the first two is out of range. -/
theorem Builtin.float_too_late : ¬ ∀ b : Builtin, b = add ∨ b = mul → ∀ numbers : List Number,
    (∃ x, .float x ∈ numbers) → ∀ name n, ∃ y, b.behaviour.run name (numbers.map Number.toValue) n =
      .done (.ok (.float y)) := by
  intro h
  obtain ⟨y, hy⟩ := h add (.inl rfl) [.integer 9223372036854775807, .integer 1, .float 1.0] ⟨1.0, by simp⟩ "add" 3
  have hoverflow : add.behaviour.run "add"
      ([Number.integer 9223372036854775807, .integer 1, .float 1.0].map Number.toValue) 3 =
        .done (.error (.failed (.overflow "add"))) := rfl
  rw [hoverflow] at hy
  cases hy

end CallExpr

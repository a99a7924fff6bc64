import Mathlib.Algebra.Order.Ring.Nat

/-!
# Rounding to 53 bits

* `Rounding.dropBits`: a number without its last bits, rounded to the nearest and half way to the even one.
* `Rounding.nearest`: the nearest integer with 53 significant bits.
* `Rounding.nearest_of_le`: an integer of up to 53 bits is its own nearest.
* `Rounding.nearest_error`: how far the nearest can be.
-/

namespace CallExpr.Rounding

variable {n k : Nat}

/-! ## Dropping bits -/

/-- `n` without its last `k` bits, rounded to the nearest number. Half way it is the even one. -/
def dropBits (n k : Nat) : Nat :=
  if 2 * (n % 2 ^ k) < 2 ^ k ∨ 2 * (n % 2 ^ k) = 2 ^ k ∧ n / 2 ^ k % 2 = 0 then n / 2 ^ k else n / 2 ^ k + 1

theorem dropBits_zero (n : Nat) : dropBits n 0 = n := by
  simp [dropBits, Nat.mod_one]

theorem dropBits_bounds (n k : Nat) : n / 2 ^ k ≤ dropBits n k ∧ dropBits n k ≤ n / 2 ^ k + 1 := by
  unfold dropBits
  split <;> omega

/-- Zeros at the end do not matter. -/
theorem dropBits_mul_two_pow (n k j : Nat) : dropBits (n * 2 ^ j) (k + j) = dropBits n k := by
  have hpos : 0 < 2 ^ j := Nat.two_pow_pos j
  have hdiv : n * 2 ^ j / 2 ^ (k + j) = n / 2 ^ k := by
    rw [Nat.pow_add, Nat.mul_div_mul_right _ _ hpos]
  have hmod : n * 2 ^ j % 2 ^ (k + j) = n % 2 ^ k * 2 ^ j := by
    rw [Nat.pow_add, Nat.mul_mod_mul_right]
  rw [dropBits, hdiv, hmod, Nat.pow_add, ← Nat.mul_assoc]
  simp only [dropBits, Nat.mul_lt_mul_right hpos, Nat.mul_left_inj (Nat.ne_of_gt hpos)]

theorem dropBits_mul_self (n k : Nat) : dropBits (n * 2 ^ k) k = n := by
  have hdrop := dropBits_mul_two_pow n 0 k
  rwa [Nat.zero_add, dropBits_zero] at hdrop

/-- At most half a place is lost or gained. -/
theorem dropBits_error (n k : Nat) :
    2 * n ≤ 2 * (dropBits n k * 2 ^ k) + 2 ^ k ∧ 2 * (dropBits n k * 2 ^ k) ≤ 2 * n + 2 ^ k := by
  have hsplit : n / 2 ^ k * 2 ^ k + n % 2 ^ k = n := Nat.div_add_mod' n (2 ^ k)
  have hlt : n % 2 ^ k < 2 ^ k := Nat.mod_lt n (Nat.two_pow_pos k)
  unfold dropBits
  split
  · omega
  · rw [Nat.add_mul, Nat.one_mul]
    omega

/-! ## Numbers of 53 bits -/

theorem lt_of_log2_lt (h : n.log2 < 52) : n < 2 ^ 53 :=
  Nat.lt_of_lt_of_le Nat.lt_log2_self (Nat.pow_le_pow_right Nat.two_pos (by omega))

theorem log2_mul_two_pow (hn : n ≠ 0) (j : Nat) : (n * 2 ^ j).log2 = n.log2 + j := by
  refine (Nat.log2_eq_iff (Nat.mul_ne_zero hn (Nat.ne_of_gt (Nat.two_pow_pos j)))).mpr ⟨?_, ?_⟩
  · rw [Nat.pow_add]
    exact Nat.mul_le_mul_right _ (Nat.log2_self_le hn)
  · rw [Nat.add_right_comm, Nat.pow_add]
    exact Nat.mul_lt_mul_of_pos_right Nat.lt_log2_self (Nat.two_pow_pos j)

/-- How many bits of `n` a mantissa has no room for. -/
def surplus (n : Nat) : Nat :=
  n.log2 - 52

/-- Zeros at the end make a mantissa of 53 bits. -/
theorem full_mul_two_pow (hzero : n ≠ 0) (hn : n < 2 ^ 53) :
    2 ^ 52 ≤ n * 2 ^ (52 - n.log2) ∧ n * 2 ^ (52 - n.log2) < 2 ^ 53 := by
  have hlog := (Nat.log2_lt hzero).mpr hn
  have hfull : (n * 2 ^ (52 - n.log2)).log2 = 52 := by
    rw [log2_mul_two_pow hzero]
    omega
  exact (Nat.log2_eq_iff (Nat.mul_ne_zero hzero (Nat.ne_of_gt (Nat.two_pow_pos _)))).mp hfull

theorem two_pow_surplus_le (h : 52 ≤ n.log2) : 2 ^ 52 * 2 ^ surplus n ≤ n := by
  have hn : n ≠ 0 := by
    rintro rfl
    exact absurd h (by decide)
  rw [← Nat.pow_add, surplus, Nat.add_sub_cancel' h]
  exact Nat.log2_self_le hn

theorem lt_two_pow_surplus (n : Nat) : n < 2 ^ 53 * 2 ^ surplus n := by
  rw [← Nat.pow_add]
  refine Nat.lt_of_lt_of_le Nat.lt_log2_self (Nat.pow_le_pow_right Nat.two_pos ?_)
  unfold surplus
  omega

theorem surplus_of_lt (h : n < 2 ^ 53) : surplus n = 0 := by
  by_cases hn : n = 0
  · rw [hn]
    rfl
  · have hlog := (Nat.log2_lt hn).mpr h
    unfold surplus
    omega

/-- A mantissa is rounded to a mantissa, or to the least number that is too long. -/
theorem dropBits_surplus (h : 52 ≤ n.log2) : 2 ^ 52 ≤ dropBits n (surplus n) ∧ dropBits n (surplus n) ≤ 2 ^ 53 := by
  obtain ⟨hfloor, hceil⟩ := dropBits_bounds n (surplus n)
  have hlow := (Nat.le_div_iff_mul_le (Nat.two_pow_pos _)).mpr (two_pow_surplus_le h)
  have hhigh := (Nat.div_lt_iff_lt_mul (Nat.two_pow_pos _)).mpr (lt_two_pow_surplus n)
  omega

/-- Of a mantissa, no bit is dropped. Of the least number that is too long, it is one zero. -/
theorem div_two_pow_surplus {r : Nat} (hlow : 2 ^ 52 ≤ r) (hhigh : r ≤ 2 ^ 53) : surplus r ≤ 1 ∧
    2 ^ 52 ≤ r / 2 ^ surplus r ∧ r / 2 ^ surplus r < 2 ^ 53 ∧ r / 2 ^ surplus r * 2 ^ surplus r = r := by
  rcases Nat.lt_or_eq_of_le hhigh with hlt | rfl
  · rw [surplus_of_lt hlt, Nat.pow_zero, Nat.div_one, Nat.mul_one]
    exact ⟨Nat.zero_le 1, hlow, hlt, rfl⟩
  · decide

/-- The nearest natural number with 53 significant bits. -/
def nearestNat (n : Nat) : Nat :=
  dropBits n (surplus n) * 2 ^ surplus n

theorem nearestNat_of_le (h : n ≤ 2 ^ 53) : nearestNat n = n := by
  rcases Nat.lt_or_eq_of_le h with hlt | rfl
  · rw [nearestNat, surplus_of_lt hlt, dropBits_zero, Nat.pow_zero, Nat.mul_one]
  · decide

/-- With zeros at its end, a number of 53 bits is rounded to itself too. -/
theorem nearestNat_mul_of_lt (hn : n < 2 ^ 53) (j : Nat) : nearestNat (n * 2 ^ j) = n * 2 ^ j := by
  by_cases hzero : n = 0
  · rw [hzero, Nat.zero_mul]
    rfl
  · have hlog := (Nat.log2_lt hzero).mpr hn
    obtain ⟨i, hi⟩ : ∃ i, j = i + surplus (n * 2 ^ j) := by
      refine Nat.exists_eq_add_of_le' ?_
      rw [surplus, log2_mul_two_pow hzero]
      omega
    generalize hk : surplus (n * 2 ^ j) = k at hi
    have hsplit : n * 2 ^ j = n * 2 ^ i * 2 ^ k := by rw [hi, Nat.pow_add, Nat.mul_assoc]
    rw [nearestNat, hk, hsplit, dropBits_mul_self]

/-- **Zeros at the end do not matter.** -/
theorem nearestNat_mul_two_pow (n j : Nat) : nearestNat (n * 2 ^ j) = nearestNat n * 2 ^ j := by
  by_cases hlog : 52 ≤ n.log2
  · have hn : n ≠ 0 := by
      rintro rfl
      exact absurd hlog (by decide)
    have hsurplus : surplus (n * 2 ^ j) = surplus n + j := by
      rw [surplus, surplus, log2_mul_two_pow hn]
      omega
    rw [nearestNat, hsurplus, dropBits_mul_two_pow, Nat.pow_add, ← Nat.mul_assoc, nearestNat]
  · have hlt := lt_of_log2_lt (Nat.lt_of_not_le hlog)
    rw [nearestNat_mul_of_lt hlt, nearestNat_of_le (Nat.le_of_lt hlt)]

theorem nearestNat_error (n : Nat) :
    2 ^ 53 * n ≤ 2 ^ 53 * nearestNat n + n ∧ 2 ^ 53 * nearestNat n ≤ 2 ^ 53 * n + n := by
  by_cases hlog : 52 ≤ n.log2
  · have hlow := two_pow_surplus_le hlog
    obtain ⟨hbelow, habove⟩ := dropBits_error n (surplus n)
    unfold nearestNat
    omega
  · rw [nearestNat_of_le (Nat.le_of_lt (lt_of_log2_lt (Nat.lt_of_not_le hlog)))]
    omega

/-- The nearest integer with 53 significant bits. -/
def nearest : Int → Int
  | .ofNat n => nearestNat n
  | .negSucc n => -nearestNat (n + 1)

/-- The integers of 53 bits stay as they are, and the next power of two. -/
theorem nearest_of_le {n : Int} (h : n.natAbs ≤ 2 ^ 53) : nearest n = n := by
  cases n with
  | ofNat n => exact congrArg Int.ofNat (nearestNat_of_le h)
  | negSucc n =>
    have hn : nearestNat (n + 1) = n + 1 := nearestNat_of_le h
    rw [nearest, hn]
    rfl

/-- The nearest is off by one part in `2 ^ 53` at most. -/
theorem nearest_error (n : Int) : 2 ^ 53 * (nearest n - n).natAbs ≤ n.natAbs := by
  cases n with
  | ofNat n =>
    have herror := nearestNat_error n
    rw [nearest, Int.ofNat_eq_natCast]
    omega
  | negSucc n =>
    have herror := nearestNat_error (n + 1)
    rw [nearest]
    omega

end CallExpr.Rounding

import Mathlib.Algebra.Order.Ring.Nat

/-!
# Rounding to a number of bits

A natural number rounded to its `p` leading bits, to the nearest and in a tie to the
even one. This is what the conversion to a binary floating-point format with `p` bits
of precision does, and, since it does not depend on the unit, a product in it.

## Key results

- `roundTo_mul_two_pow`: numbers that have `p` bits in some unit are exact
- `roundTo_le_two_pow`: rounding does not pass a power of two
-/

namespace Rounding

variable {p n k m : Nat}

/-- The unit in which `n` has `p` bits. -/
def ulp (p n : Nat) : Nat := 2 ^ (n.log2 + 1 - p)

/-- `n` rounded to `p` bits. -/
def roundTo (p n : Nat) : Nat :=
  let q := n / ulp p n
  let r := n % ulp p n
  if 2 * r < ulp p n ∨ 2 * r = ulp p n ∧ q % 2 = 0 then q * ulp p n else (q + 1) * ulp p n

theorem ulp_pos : 0 < ulp p n := Nat.two_pow_pos _

/-- The unit divides the powers of two from the unit on. -/
theorem ulp_dvd_two_pow (h : n.log2 + 1 - p ≤ k) : ulp p n ∣ 2 ^ k := Nat.pow_dvd_pow 2 h

theorem roundTo_of_dvd (h : ulp p n ∣ n) : roundTo p n = n := by
  unfold roundTo
  rw [Nat.mod_eq_zero_of_dvd h]
  dsimp only
  rw [if_pos (.inl ulp_pos), Nat.div_mul_cancel h]

theorem log2_mul_two_pow_lt (hm : m < 2 ^ p) (k : Nat) : (m * 2 ^ k).log2 + 1 ≤ p + k ∨ m = 0 := by
  by_cases hzero : m = 0
  · exact .inr hzero
  · refine .inl ((Nat.log2_lt (Nat.mul_ne_zero hzero (Nat.two_pow_pos k).ne')).2 ?_)
    rw [Nat.pow_add]
    exact Nat.mul_lt_mul_of_pos_right hm (Nat.two_pow_pos k)

/-- A number that has `p` bits in some unit is not changed. -/
theorem roundTo_mul_two_pow (hm : m < 2 ^ p) (k : Nat) : roundTo p (m * 2 ^ k) = m * 2 ^ k := by
  refine roundTo_of_dvd ?_
  rcases log2_mul_two_pow_lt hm k with hlog | rfl
  · exact (ulp_dvd_two_pow (Nat.sub_le_iff_le_add'.2 hlog)).mul_left m
  · rw [Nat.zero_mul]
    exact Nat.dvd_zero _

/-- Between multiples of the unit nothing is rounded past the upper one. -/
theorem roundTo_le {b : Nat} (h : n ≤ b) (hb : ulp p n ∣ b) : roundTo p n ≤ b := by
  by_cases hdvd : ulp p n ∣ n
  · rwa [roundTo_of_dvd hdvd]
  · obtain ⟨c, hc⟩ := hb
    have hlt : n < ulp p n * c := by
      refine Nat.lt_of_le_of_ne (hc ▸ h) fun heq => hdvd ?_
      exact ⟨c, heq⟩
    unfold roundTo
    dsimp only
    rw [hc, Nat.mul_comm (ulp p n) c]
    split
    · exact Nat.mul_le_mul_right _ (Nat.div_lt_of_lt_mul hlt).le
    · exact Nat.mul_le_mul_right _ (Nat.div_lt_of_lt_mul hlt)

/-- Rounding does not pass a power of two. -/
theorem roundTo_le_two_pow (hp : 0 < p) (h : n ≤ 2 ^ k) : roundTo p n ≤ 2 ^ k := by
  refine roundTo_le h (ulp_dvd_two_pow ?_)
  have hlog : n.log2 ≤ k := by
    by_cases hzero : n = 0
    · rw [hzero]
      exact Nat.zero_le _
    · exact Nat.le_of_lt_succ ((Nat.log2_lt hzero).2
        (Nat.lt_of_le_of_lt h (Nat.pow_lt_pow_right (by decide) (Nat.lt_succ_self k))))
  omega

end Rounding

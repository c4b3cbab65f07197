import Mathlib.Data.Nat.Bitwise
/-!
# Bits of `UInt64`

Shifts, masks and bit tests in terms of `toNat`, where nothing is shifted out,
and the shift that brings the top bit of a number to bit 63.
-/

namespace Bits

variable {x m s : UInt64} {k : Nat}

theorem toNat_pred (h : 0 < x.toNat) : (x - 1).toNat = x.toNat - 1 := by
  have hle : 1 ≤ x := by
    rw [UInt64.le_iff_toNat_le, UInt64.toNat_one]
    omega
  rw [UInt64.toNat_sub_of_le _ _ hle, UInt64.toNat_one]

theorem toNat_succ (h : x.toNat + 1 < 2 ^ 64) : (x + 1).toNat = x.toNat + 1 := by
  rw [UInt64.toNat_add, UInt64.toNat_one]
  omega

theorem toNat_shl (hs : s.toNat % 64 = k) (h : x.toNat * 2 ^ k < 2 ^ 64) : (x <<< s).toNat = x.toNat * 2 ^ k := by
  rw [UInt64.toNat_shiftLeft, hs, Nat.shiftLeft_eq, Nat.mod_eq_of_lt h]

theorem toNat_shr (hs : s.toNat % 64 = k) : (x >>> s).toNat = x.toNat / 2 ^ k := by
  rw [UInt64.toNat_shiftRight, hs, Nat.shiftRight_eq_div_pow]

theorem toNat_and_mask (hm : m.toNat = 2 ^ k - 1) : (x &&& m).toNat = x.toNat % 2 ^ k := by
  rw [UInt64.toNat_and, hm, Nat.and_two_pow_sub_one_eq_mod]

/-- The test of the top bit of a number of `k + 1` bits. -/
theorem and_bit_eq_zero (hm : m.toNat = 2 ^ k) (hx : x.toNat < 2 ^ (k + 1)) : x &&& m = 0 ↔ x.toNat < 2 ^ k := by
  have hpos : 0 < 2 ^ k := Nat.two_pow_pos k
  rw [← UInt64.toNat_inj, UInt64.toNat_and, hm, Nat.and_two_pow, Nat.testBit_eq_decide_div_mod_eq, UInt64.toNat_zero]
  by_cases hlt : x.toNat < 2 ^ k
  · rw [Nat.div_eq_of_lt hlt]
    simp [hlt]
  · have hdiv : x.toNat / 2 ^ k = 1 := by
      apply Nat.div_eq_of_lt_le
      · omega
      · rw [pow_succ] at hx
        omega
    rw [hdiv]
    simp [hlt]

/-- A number with its top bit shifted up to bit 63. -/
theorem shift_top {f : Nat} (h0 : f ≠ 0) (h : f < 2 ^ 64) :
    2 ^ 63 ≤ f * 2 ^ (63 - f.log2) ∧ f * 2 ^ (63 - f.log2) < 2 ^ 64 := by
  have hlog : f.log2 < 64 := (Nat.log2_lt h0).2 h
  have hlow : 2 ^ f.log2 ≤ f := Nat.log2_self_le h0
  have hhigh : f < 2 ^ (f.log2 + 1) := Nat.lt_log2_self
  constructor
  · calc 2 ^ 63 = 2 ^ f.log2 * 2 ^ (63 - f.log2) := by rw [← pow_add]; congr 1; omega
      _ ≤ _ := Nat.mul_le_mul_right _ hlow
  · calc f * 2 ^ (63 - f.log2) < 2 ^ (f.log2 + 1) * 2 ^ (63 - f.log2) :=
          Nat.mul_lt_mul_of_pos_right hhigh (Nat.two_pow_pos _)
      _ = 2 ^ 64 := by rw [← pow_add]; congr 1; omega

theorem log2_two_mul_add_one {f : Nat} (h0 : f ≠ 0) : (2 * f + 1).log2 = f.log2 + 1 := by
  have hlow : 2 ^ f.log2 ≤ f := Nat.log2_self_le h0
  have hhigh : f < 2 ^ (f.log2 + 1) := Nat.lt_log2_self
  rw [Nat.log2_eq_iff (by omega), pow_succ _ (f.log2 + 1)]
  rw [pow_succ] at hhigh ⊢
  omega

/-- The shift that brings the top bit of `f` to bit `t`. -/
theorem log2_add_eq {f j t : Nat} (h0 : f ≠ 0) (hge : 2 ^ t ≤ f * 2 ^ j) (hlt : f * 2 ^ j < 2 ^ (t + 1)) :
    f.log2 + j = t := by
  have hlow : 2 ^ f.log2 ≤ f := Nat.log2_self_le h0
  have hhigh : f < 2 ^ (f.log2 + 1) := Nat.lt_log2_self
  have h1 : 2 ^ (f.log2 + j) < 2 ^ (t + 1) := by
    rw [pow_add]
    exact lt_of_le_of_lt (Nat.mul_le_mul_right _ hlow) hlt
  have h2 : 2 ^ t < 2 ^ (f.log2 + 1 + j) := by
    rw [pow_add]
    exact lt_of_le_of_lt hge (Nat.mul_lt_mul_of_pos_right hhigh (Nat.two_pow_pos _))
  have h1' := (Nat.pow_lt_pow_iff_right (by omega)).1 h1
  have h2' := (Nat.pow_lt_pow_iff_right (by omega)).1 h2
  omega

end Bits

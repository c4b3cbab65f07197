import Mathlib.Algebra.Order.Field.Rat
import Mathlib.Algebra.Order.Field.Basic
import Mathlib.Algebra.Order.Field.Power
import Mathlib.Tactic.Linarith
import Mathlib.Tactic.Positivity
import Mathlib.Tactic.Ring
/-!
# The nearest binary number

A binary number of `q + 1` bits is a `g * 2^e` with `|g| < 2^(q + 1)` and `e` from `emin`
on. `Halfway.nearest`: what lies between the middles from `f * 2^e` to its neighbours has
no other such number as near.
-/

namespace Binary

def Representable (q : ℕ) (emin : ℤ) (y : ℚ) : Prop := ∃ g e : ℤ, |g| < 2 ^ (q + 1) ∧ emin ≤ e ∧ y = g * 2 ^ e

/-- All bits of `f` are in use, unless the exponent is the least one. -/
structure Normal (q : ℕ) (emin : ℤ) (f : ℕ) (e : ℤ) : Prop where
  pos : 0 < f
  emin_le : emin ≤ e
  full : 2 ^ q ≤ f ∨ e = emin

/-- `d` is between the middles to the next numbers. Below a power of two the next one
is half as far away. -/
structure Halfway (q f : ℕ) (e : ℤ) (d : ℚ) : Prop where
  gt : f * 2 ^ e - 2 ^ (e - 1) < d
  gt_of_power : f = 2 ^ q → f * 2 ^ e - 2 ^ (e - 2) < d
  lt : d < f * 2 ^ e + 2 ^ (e - 1)

variable {q f : ℕ} {emin e e' g : ℤ} {x y d : ℚ}

theorem Representable.neg (h : Representable q emin y) : Representable q emin (-y) := by
  obtain ⟨g, e, hg, he, rfl⟩ := h
  exact ⟨-g, e, by rwa [abs_neg], he, by push_cast; ring⟩

theorem representable_zero : Representable q emin 0 := ⟨0, emin, by positivity, le_refl emin, by simp⟩

/-! ## Neighbours -/

theorem zpow_split (i j : ℤ) : (2 : ℚ) ^ (i + j) = 2 ^ i * 2 ^ j := zpow_add₀ (by norm_num) i j

theorem double_zpow (i : ℤ) : 2 * (2 : ℚ) ^ (i - 1) = 2 ^ i := by
  rw [← zpow_one_add₀ (by norm_num)]
  congr 1
  omega

/-- With a smaller exponent, a number does not reach `2^q * 2^e`. -/
theorem lt_of_exponent_lt (hg : |g| < 2 ^ (q + 1)) (he : e' < e) : (g : ℚ) * 2 ^ e' < 2 ^ q * 2 ^ e := by
  have hgq : (g : ℚ) < 2 ^ (q + 1) := by exact_mod_cast (le_abs_self g).trans_lt hg
  calc (g : ℚ) * 2 ^ e' < 2 ^ (q + 1) * 2 ^ e' := mul_lt_mul_of_pos_right hgq (by positivity)
    _ = 2 ^ q * 2 ^ (e' + 1) := by
      rw [zpow_split]
      ring
    _ ≤ 2 ^ q * 2 ^ e := mul_le_mul_of_nonneg_left (zpow_le_zpow_right₀ (by norm_num) he) (by positivity)

/-- With the same exponent or a greater one, it is a multiple of `2^e`. -/
theorem multiple_of_exponent_le (g : ℤ) (he : e ≤ e') : ∃ m : ℤ, (g : ℚ) * 2 ^ e' = m * 2 ^ e := by
  obtain ⟨j, rfl⟩ : ∃ j : ℕ, e' = e + j := ⟨(e' - e).toNat, by omega⟩
  refine ⟨g * 2 ^ j, ?_⟩
  rw [zpow_split, zpow_natCast]
  push_cast
  ring

theorem next_le (h : Normal q emin f e) (hy : Representable q emin y) (hlt : f * 2 ^ e < y) : f * 2 ^ e + 2 ^ e ≤ y := by
  obtain ⟨g, e', hg, he', rfl⟩ := hy
  have hpos : (0 : ℚ) < 2 ^ e := by positivity
  rcases le_or_gt e e' with he | he
  · obtain ⟨m, hm⟩ := multiple_of_exponent_le g he
    rw [hm] at hlt ⊢
    have hfm : (f : ℤ) < m := by exact_mod_cast lt_of_mul_lt_mul_right hlt hpos.le
    have hfm' : (f : ℚ) + 1 ≤ m := by exact_mod_cast hfm
    calc (f : ℚ) * 2 ^ e + 2 ^ e = (f + 1) * 2 ^ e := by ring
      _ ≤ m * 2 ^ e := mul_le_mul_of_nonneg_right hfm' hpos.le
  · -- `f` has all its bits, so there is nothing above it with a smaller exponent.
    have hf : 2 ^ q ≤ f := h.full.resolve_right (by omega)
    have hfq : (2 : ℚ) ^ q ≤ f := by exact_mod_cast hf
    exact absurd hlt ((lt_of_exponent_lt hg he).trans_le (mul_le_mul_of_nonneg_right hfq hpos.le)).not_gt

theorem le_previous (hf : 2 ^ q < f ∨ e = emin) (hy : Representable q emin y) (hlt : y < f * 2 ^ e) :
    y ≤ f * 2 ^ e - 2 ^ e := by
  obtain ⟨g, e', hg, he', rfl⟩ := hy
  have hpos : (0 : ℚ) < 2 ^ e := by positivity
  have hsub : (f : ℚ) * 2 ^ e - 2 ^ e = (f - 1) * 2 ^ e := by ring
  rw [hsub]
  rcases le_or_gt e e' with he | he
  · obtain ⟨m, hm⟩ := multiple_of_exponent_le g he
    rw [hm] at hlt ⊢
    have hmf : m < f := by exact_mod_cast lt_of_mul_lt_mul_right hlt hpos.le
    have hmf' : (m : ℚ) ≤ f - 1 := by exact_mod_cast (show m ≤ (f : ℤ) - 1 by omega)
    exact mul_le_mul_of_nonneg_right hmf' hpos.le
  · have hf' : 2 ^ q + 1 ≤ f := hf.resolve_right (by omega)
    have hfq : (2 : ℚ) ^ q + 1 ≤ f := by exact_mod_cast hf'
    exact (lt_of_exponent_lt hg he).le.trans (mul_le_mul_of_nonneg_right (by linarith) hpos.le)

/-- Below any number, the next one is at least half a unit away. -/
theorem le_previous_half (h : Normal q emin f e) (hy : Representable q emin y) (hlt : y < f * 2 ^ e) :
    y ≤ f * 2 ^ e - 2 ^ (e - 1) := by
  have hdouble := double_zpow e
  have hpos : (0 : ℚ) < 2 ^ (e - 1) := by positivity
  rcases eq_or_lt_of_le h.emin_le with he | he
  · have := le_previous (.inr he.symm) hy hlt
    linarith
  · -- The same number, with one bit more.
    have hfull : 2 ^ q ≤ f := h.full.resolve_right (by omega)
    have heq : ((2 * f : ℕ) : ℚ) * 2 ^ (e - 1) = f * 2 ^ e := by
      rw [← hdouble]
      push_cast
      ring
    have := le_previous (f := 2 * f) (.inl (by have := h.pos; omega)) hy (heq ▸ hlt)
    rwa [heq] at this

/-! ## Distances -/

theorem nearer_below (hxy : x < y) (h : 2 * d < x + y) : |d - x| < |d - y| := by
  have hy : y - d ≤ |d - y| := by
    rw [abs_sub_comm]
    exact le_abs_self _
  refine lt_of_lt_of_le (abs_lt.2 ⟨?_, ?_⟩) hy
  · linarith
  · linarith

theorem nearer_above (hxy : y < x) (h : x + y < 2 * d) : |d - x| < |d - y| := by
  refine lt_of_lt_of_le (abs_lt.2 ⟨?_, ?_⟩) (le_abs_self _)
  · linarith
  · linarith

theorem Halfway.nearest (hd : Halfway q f e d) (h : Normal q emin f e) (hy : Representable q emin y) (hne : y ≠ f * 2 ^ e) :
    |d - f * 2 ^ e| < |d - y| := by
  have hdouble := double_zpow e
  have hquad := double_zpow (e - 1)
  rw [sub_sub, one_add_one_eq_two] at hquad
  rcases lt_or_gt_of_ne hne with hlt | hgt
  · apply nearer_above hlt
    by_cases hpow : f = 2 ^ q
    · have hgt := hd.gt_of_power hpow
      have hle := le_previous_half h hy hlt
      linarith
    · have hgt := hd.gt
      have hle := le_previous (h.full.imp_left fun hfull => lt_of_le_of_ne hfull (Ne.symm hpow)) hy hlt
      linarith
  · apply nearer_below hgt
    have hlt := hd.lt
    have hge := next_le h hy hgt
    linarith

end Binary

import Mathlib.Algebra.Order.Field.Rat
import Mathlib.Algebra.Order.Field.Basic
import Mathlib.Algebra.Order.Field.Power
import Mathlib.Tactic.Linarith
import Mathlib.Tactic.Ring
import Mathlib.Tactic.FieldSimp
/-!
# Decimals near a binary number

`f * 2^e` is a binary number, and `lo` and `hi` are bounds around it, closer than
half a unit of its last place. `Coarsest lo hi d k` says that `d * 10^k` lies
between them, and none of the multiples of 10^`(k + 1)`.

Such a decimal is an integer where the binary number is one, and lies on the same
side of 1.
-/

namespace Rounding

structure Coarsest (lo hi : ℚ) (d : ℕ) (k : ℤ) : Prop where
  lo_le : lo ≤ d * 10 ^ k
  le_hi : d * 10 ^ k ≤ hi
  coarser : ∀ n : ℕ, (n : ℚ) * 10 ^ (k + 1) ≤ hi → (n : ℚ) * 10 ^ (k + 1) ≤ lo

/-- Bounds within half a unit, the lower one below the number itself. -/
structure Near (f : ℕ) (e : ℤ) (lo hi : ℚ) : Prop where
  lo_gt : (2 * f - 1) * 2 ^ (e - 1) < lo
  lo_lt : lo < f * 2 ^ e
  hi_ge : (f : ℚ) * 2 ^ e ≤ hi
  hi_lt : hi < (2 * f + 1) * 2 ^ (e - 1)

variable {lo hi : ℚ} {d f len : ℕ} {k e : ℤ}

theorem Coarsest.scale (h : Coarsest lo hi d k) (K : ℤ) : Coarsest (lo * 10 ^ K) (hi * 10 ^ K) d (k + K) := by
  have hpos : (0 : ℚ) < 10 ^ K := by positivity
  have hpow : ∀ (n : ℕ) (i : ℤ), (n : ℚ) * 10 ^ (i + K) = n * 10 ^ i * 10 ^ K := fun n i => by
    rw [zpow_add₀ (by norm_num), mul_assoc]
  refine ⟨?_, ?_, fun n hn => ?_⟩
  · rw [hpow]
    exact mul_le_mul_of_nonneg_right h.lo_le hpos.le
  · rw [hpow]
    exact mul_le_mul_of_nonneg_right h.le_hi hpos.le
  · rw [add_right_comm, hpow] at hn ⊢
    exact mul_le_mul_of_nonneg_right (h.coarser n (le_of_mul_le_mul_right hn hpos)) hpos.le

/-- Below the point, `f` counts parts of 2^`q`. -/
theorem Near.parts {q : ℕ} (h : Near f (-q) lo hi) : 2 * (f : ℚ) - 1 < lo * 2 ^ (q + 1) ∧ hi * 2 ^ (q + 1) < 2 * f + 1 := by
  have hpos : (0 : ℚ) < 2 ^ (q + 1) := by positivity
  have hpow : (2 : ℚ) ^ (-(q : ℤ) - 1) * 2 ^ (q + 1) = 1 := by
    rw [← zpow_natCast, ← zpow_add₀ (by norm_num)]
    push_cast
    ring_nf
    rfl
  constructor
  · have := mul_lt_mul_of_pos_right h.lo_gt hpos
    rwa [mul_assoc, hpow, mul_one] at this
  · have := mul_lt_mul_of_pos_right h.hi_lt hpos
    rwa [mul_assoc, hpow, mul_one] at this

theorem natural_of_nonneg (f : ℕ) {e : ℤ} (he : 0 ≤ e) : ∃ n : ℕ, (f : ℚ) * 2 ^ e = n := by
  obtain ⟨m, rfl⟩ := Int.eq_ofNat_of_zero_le he
  exact ⟨f * 2 ^ m, by push_cast; rw [zpow_natCast]⟩

theorem mul_zpow_neg {q : ℕ} (x : ℚ) : x * 2 ^ (-(q : ℤ)) = x / 2 ^ q := by
  rw [zpow_neg, zpow_natCast, div_eq_mul_inv]

/-- The decimal is an integer where the binary number is one. -/
theorem Coarsest.nonneg_iff (h : Coarsest lo hi d k) (hn : Near f e lo hi) : 0 ≤ k ↔ ∃ n : ℕ, (f : ℚ) * 2 ^ e = n := by
  constructor
  · intro hk
    obtain ⟨i, rfl⟩ := Int.eq_ofNat_of_zero_le hk
    rcases le_or_gt 0 e with he | he
    · exact natural_of_nonneg f he
    · obtain ⟨q, rfl⟩ : ∃ q : ℕ, e = -q := ⟨e.natAbs, by omega⟩
      obtain ⟨hlo, hhi⟩ := hn.parts
      have hpos : (0 : ℚ) < 2 ^ (q + 1) := by positivity
      have hge := mul_le_mul_of_nonneg_right h.lo_le hpos.le
      have hle := mul_le_mul_of_nonneg_right h.le_hi hpos.le
      rw [zpow_natCast] at hge hle
      -- In parts of 2^(q + 1), the only integer between the bounds is `2 * f`.
      have hnat : d * 10 ^ i * 2 ^ (q + 1) < 2 * f + 1 := by
        have : ((d * 10 ^ i * 2 ^ (q + 1) : ℕ) : ℚ) < ((2 * f + 1 : ℕ) : ℚ) := by
          push_cast
          linarith
        exact_mod_cast this
      have hnat' : 2 * f < d * 10 ^ i * 2 ^ (q + 1) + 1 := by
        have : ((2 * f : ℕ) : ℚ) < ((d * 10 ^ i * 2 ^ (q + 1) + 1 : ℕ) : ℚ) := by
          push_cast
          linarith
        exact_mod_cast this
      have heq : f = d * 10 ^ i * 2 ^ q := by
        rw [pow_succ, ← mul_assoc] at hnat hnat'
        omega
      refine ⟨d * 10 ^ i, ?_⟩
      rw [mul_zpow_neg, heq]
      push_cast
      exact mul_div_cancel_right₀ _ (by positivity)
  · rintro ⟨n, hv⟩
    by_contra hk
    obtain ⟨j, hj⟩ : ∃ j : ℕ, -(k + 1) = j := ⟨(-(k + 1)).toNat, by omega⟩
    have hpow : ((n * 10 ^ j : ℕ) : ℚ) * 10 ^ (k + 1) = n := by
      have hk' : k + 1 = -(j : ℤ) := by omega
      rw [hk', zpow_neg, zpow_natCast]
      push_cast
      exact mul_inv_cancel_right₀ (by positivity) _
    -- The number itself would be a coarser decimal.
    have hlo := h.coarser (n * 10 ^ j) (by rw [hpow, ← hv]; exact hn.hi_ge)
    rw [hpow, ← hv] at hlo
    exact absurd hn.lo_lt hlo.not_gt

/-- The decimal and a number that is no integer lie on the same side of 1. -/
theorem Coarsest.side (h : Coarsest lo hi d k) (hn : Near f e lo hi) (hint : ¬ ∃ n : ℕ, (f : ℚ) * 2 ^ e = n) :
    (1 < (f : ℚ) * 2 ^ e ∧ 1 < (d : ℚ) * 10 ^ k) ∨ ((f : ℚ) * 2 ^ e < 1 ∧ (d : ℚ) * 10 ^ k < 1) := by
  have he : e < 0 := by
    by_contra he
    exact hint (natural_of_nonneg f (by omega))
  obtain ⟨q, rfl⟩ : ∃ q : ℕ, e = -q := ⟨e.natAbs, by omega⟩
  obtain ⟨hlo, hhi⟩ := hn.parts
  have hpos : (0 : ℚ) < 2 ^ q := by positivity
  have hpos' : (0 : ℚ) < 2 ^ (q + 1) := by positivity
  have hpow : (2 : ℚ) ^ (q + 1) = 2 ^ q * 2 := pow_succ _ _
  rw [mul_zpow_neg] at *
  rcases Nat.lt_trichotomy f (2 ^ q) with hf | hf | hf
  · refine .inr ⟨?_, lt_of_le_of_lt h.le_hi ?_⟩
    · rw [div_lt_one hpos]
      exact_mod_cast hf
    · have hf' : (f : ℚ) + 1 ≤ 2 ^ q := by exact_mod_cast hf
      by_contra hge
      have := mul_le_mul_of_nonneg_right (not_lt.1 hge) hpos'.le
      linarith
  · refine absurd ⟨1, ?_⟩ hint
    rw [hf]
    push_cast
    exact div_self hpos.ne'
  · refine .inl ⟨?_, lt_of_lt_of_le ?_ h.lo_le⟩
    · rw [one_lt_div hpos]
      exact_mod_cast hf
    · have hf' : (2 : ℚ) ^ q + 1 ≤ f := by exact_mod_cast hf
      by_contra hle
      have := mul_le_mul_of_nonneg_right (not_lt.1 hle) hpos'.le
      linarith

theorem zpow_le_decimal (hlen : 10 ^ (len - 1) ≤ d ∧ d < 10 ^ len) (h1 : 1 ≤ len) :
    (10 : ℚ) ^ ((len : ℤ) + k - 1) ≤ d * 10 ^ k ∧ (d : ℚ) * 10 ^ k < 10 ^ ((len : ℤ) + k) := by
  have hpos : (0 : ℚ) < 10 ^ k := by positivity
  constructor
  · have hd : ((10 ^ (len - 1) : ℕ) : ℚ) ≤ d := by exact_mod_cast hlen.1
    have hpow : (10 : ℚ) ^ ((len : ℤ) + k - 1) = ((10 ^ (len - 1) : ℕ) : ℚ) * 10 ^ k := by
      push_cast
      rw [← zpow_natCast, ← zpow_add₀ (by norm_num)]
      congr 1
      omega
    rw [hpow]
    exact mul_le_mul_of_nonneg_right hd hpos.le
  · have hd : (d : ℚ) < ((10 ^ len : ℕ) : ℚ) := by exact_mod_cast hlen.2
    have hpow : (10 : ℚ) ^ ((len : ℤ) + k) = ((10 ^ len : ℕ) : ℚ) * 10 ^ k := by
      push_cast
      rw [zpow_add₀ (by norm_num), zpow_natCast]
    rw [hpow]
    exact mul_lt_mul_of_pos_right hd hpos

/-- A decimal of `len` digits is as large as its bounds are. -/
theorem Coarsest.place (h : Coarsest lo hi d k) (hlen : 10 ^ (len - 1) ≤ d ∧ d < 10 ^ len) (h1 : 1 ≤ len) {a b : ℤ}
    (hlo : (10 : ℚ) ^ a ≤ lo) (hhi : hi ≤ 10 ^ b) : a < len + k ∧ len + k ≤ b + 1 := by
  obtain ⟨hlow, hhigh⟩ := zpow_le_decimal (k := k) hlen h1
  have hone : (1 : ℚ) < 10 := by norm_num
  refine ⟨(zpow_lt_zpow_iff_right₀ hone).1 ?_, ?_⟩
  · exact (hlo.trans h.lo_le).trans_lt hhigh
  · have := (zpow_le_zpow_iff_right₀ hone).1 ((hlow.trans h.le_hi).trans hhi)
    omega

/-- With `len` digits, the point is between two of them exactly where the binary
number is above 1 and no integer. -/
theorem Coarsest.point_iff (h : Coarsest lo hi d k) (hn : Near f e lo hi) (hlen : 10 ^ (len - 1) ≤ d ∧ d < 10 ^ len)
    (h1 : 1 ≤ len) : (k < 0 ∧ 0 < len + k) ↔ 1 < (f : ℚ) * 2 ^ e ∧ ¬ ∃ n : ℕ, (f : ℚ) * 2 ^ e = n := by
  have hk : k < 0 ↔ ¬ ∃ n : ℕ, (f : ℚ) * 2 ^ e = n := by rw [← h.nonneg_iff hn, not_le]
  rw [← hk, and_comm]
  refine and_congr_left fun hneg => ?_
  obtain ⟨hlow, hhigh⟩ := zpow_le_decimal (k := k) hlen h1
  rcases h.side hn (hk.1 hneg) with ⟨hv, hd⟩ | ⟨hv, hd⟩
  · refine iff_of_true ?_ hv
    by_contra hle
    have hone : (10 : ℚ) ^ ((len : ℤ) + k) ≤ 1 := zpow_le_one_of_nonpos₀ (by norm_num) (by omega)
    linarith
  · refine iff_of_false (fun hlt => ?_) hv.not_gt
    have hone : (1 : ℚ) ≤ 10 ^ ((len : ℤ) + k - 1) := one_le_zpow₀ (by norm_num) (by omega)
    linarith

/-! ## Rounded products -/

/-- `c` counts the units of 2^`e` in `s`, to the nearest one. -/
structure Nearest (c : ℕ) (e : ℤ) (s : ℚ) : Prop where
  ge : (2 * c - 1) * 2 ^ (e - 1) ≤ s
  le : s ≤ (2 * c + 1) * 2 ^ (e - 1)

/-- The product with a rounded factor, rounded to 2^`(w + 1)`, is less than a unit off. -/
theorem Nearest.mul {a c w r : ℕ} {e : ℤ} {s : ℚ} (h : Nearest c e s) (ha : a < 2 ^ (w + 1))
    (hr : r = (a * c + 2 ^ w) / 2 ^ (w + 1)) :
    ((r : ℚ) - 1) * 2 ^ (e + (w + 1 : ℕ)) < a * s ∧ a * s < (r + 1) * 2 ^ (e + (w + 1 : ℕ)) := by
  have hu : (0 : ℚ) < 2 ^ (e - 1) := by positivity
  have hpow : (2 : ℚ) ^ (e + (w + 1 : ℕ)) = 2 ^ (w + 2) * 2 ^ (e - 1) := by
    rw [← zpow_natCast, ← zpow_add₀ (by norm_num)]
    congr 1
    push_cast
    ring
  have hw : 2 ^ (w + 2) = 2 * 2 ^ (w + 1) := by ring
  have hrw : r * 2 ^ (w + 2) = 2 * (r * 2 ^ (w + 1)) := by rw [hw, Nat.mul_left_comm]
  have hmod := Nat.div_add_mod (a * c + 2 ^ w) (2 ^ (w + 1))
  have hlt := Nat.mod_lt (a * c + 2 ^ w) (show 0 < 2 ^ (w + 1) by positivity)
  rw [← hr, Nat.mul_comm] at hmod
  have ha0 : (0 : ℚ) ≤ a := Nat.cast_nonneg a
  rw [hpow]
  constructor
  · have hnat : r * 2 ^ (w + 2) + a < 2 * (a * c) + 2 ^ (w + 2) := by
      rw [hrw, hw]
      omega
    have hq : (r : ℚ) * 2 ^ (w + 2) + a < 2 * (a * c) + 2 ^ (w + 2) := by exact_mod_cast hnat
    calc ((r : ℚ) - 1) * (2 ^ (w + 2) * 2 ^ (e - 1)) = (r * 2 ^ (w + 2) - 2 ^ (w + 2)) * 2 ^ (e - 1) := by ring
      _ < (2 * (a * c) - a) * 2 ^ (e - 1) := mul_lt_mul_of_pos_right (by linarith) hu
      _ = a * ((2 * c - 1) * 2 ^ (e - 1)) := by ring
      _ ≤ a * s := mul_le_mul_of_nonneg_left h.ge ha0
  · have hnat : 2 * (a * c) + a < r * 2 ^ (w + 2) + 2 ^ (w + 2) := by
      rw [hrw, hw]
      omega
    have hq : 2 * ((a : ℚ) * c) + a < r * 2 ^ (w + 2) + 2 ^ (w + 2) := by exact_mod_cast hnat
    calc (a : ℚ) * s ≤ a * ((2 * c + 1) * 2 ^ (e - 1)) := mul_le_mul_of_nonneg_left h.le ha0
      _ = (2 * (a * c) + a) * 2 ^ (e - 1) := by ring
      _ < (r * 2 ^ (w + 2) + 2 ^ (w + 2)) * 2 ^ (e - 1) := mul_lt_mul_of_pos_right hq hu
      _ = (r + 1) * (2 ^ (w + 2) * 2 ^ (e - 1)) := by ring

/-! ## Digit by digit

The digits of `M / u` are taken off from the highest on, in units of `w / (u * s)`,
until what is left is no more than `D / u`. -/

/-- The first place `k` at which the rest `r` is within `D`: at the place before, `N`
left a rest `q` of `D` or more. `d` may be less than the digits taken off. -/
theorem coarsest_of_rest {M D u w s v t N r q : ℕ} (hu : 0 < u) (hs : 0 < s) (ht : 0 < t)
    (hk : (10 : ℚ) ^ k = w / (u * s)) (hk' : (10 : ℚ) ^ (k + 1) = v / (u * t)) (h : d * w + r = M * s)
    (hrest : r ≤ D * s) (h' : N * v + q = M * t) (hlt : q < v) (hstop : D * t ≤ q) :
    Coarsest (((M : ℚ) - D) / u) (M / u) d k := by
  have hu' : (0 : ℚ) < u := by exact_mod_cast hu
  have hq : (d : ℚ) * w + r = M * s := by exact_mod_cast h
  have hrestq : (r : ℚ) ≤ D * s := by exact_mod_cast hrest
  refine ⟨?_, ?_, fun n hn => ?_⟩
  · rw [hk, ← mul_div_assoc, div_le_div_iff₀ hu' (by positivity)]
    have : ((M : ℚ) - D) * s ≤ d * w := by linarith
    calc ((M : ℚ) - D) * (u * s) = ((M : ℚ) - D) * s * u := by ring
      _ ≤ d * w * u := mul_le_mul_of_nonneg_right this hu'.le
  · rw [hk, ← mul_div_assoc, div_le_div_iff₀ (by positivity) hu']
    have : (d : ℚ) * w ≤ M * s := by linarith
    calc (d : ℚ) * w * u ≤ M * s * u := mul_le_mul_of_nonneg_right this hu'.le
      _ = M * (u * s) := by ring
  · rw [hk', ← mul_div_assoc, div_le_div_iff₀ (by positivity) hu'] at hn
    rw [hk', ← mul_div_assoc, div_le_div_iff₀ (by positivity) hu']
    -- A multiple of the place before is at most what was taken off there.
    have hle : n * v ≤ M * t := by
      have : (n : ℚ) * v ≤ M * t := le_of_mul_le_mul_right (by linarith) hu'
      exact_mod_cast this
    have hn' : n ≤ N := by
      by_contra hgt
      have := Nat.mul_le_mul_right v (show N + 1 ≤ n by omega)
      rw [Nat.add_mul, one_mul] at this
      omega
    have hmul : n * v + D * t ≤ M * t := by
      have := Nat.mul_le_mul_right v hn'
      omega
    have hmulq : (n : ℚ) * v + D * t ≤ M * t := by exact_mod_cast hmul
    calc (n : ℚ) * v * u ≤ (((M : ℚ) - D) * t) * u := mul_le_mul_of_nonneg_right (by linarith) hu'.le
      _ = ((M : ℚ) - D) * (u * t) := by ring

end Rounding

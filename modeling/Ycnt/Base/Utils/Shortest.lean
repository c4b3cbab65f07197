import Mathlib.Tactic.NormNum.Pow
import Ycnt.Base.Utils.DigitGen
import Ycnt.Base.Utils.Layout
/-!
# `Grisu2` stays within half a unit

The cached power is the nearest one to a power of ten, so each product in `Grisu2` is
less than a unit off. `Wp` and `Wm`, a unit within the boundaries, are within the exact
ones, and the `double` is between them: what `DigitGen` finds is a decimal for it.
-/

namespace Ycnt

open Total FixedBuffer Numeral Rounding

variable {SIZE : Nat} {b b' : FixedBuffer SIZE} {p : Nat}

/-! ## The cached power -/

/-- An entry of the table is the nearest one to 10^-`K`. Both sides are multiplied
by 2^1301 and 10^(`K` + 348). -/
def entryNearest (f : UInt64) (e K : Int) : Bool :=
  let scale := 2 ^ (e + 1300).toNat * 10 ^ (K + 348).toNat
  2 * f.toNat * scale ≤ 2 ^ 1301 * 10 ^ 348 + scale && 2 ^ 1301 * 10 ^ 348 ≤ (2 * f.toNat + 1) * scale && -1300 ≤ e

theorem entryNearest_all : ∀ i < 87, entryNearest (kCachedPowers_F.getD i 0) (kCachedPowers_E.getD i 0) (348 - i * 8) = true := by
  decide +kernel

theorem nearest_of_scaled {c : Nat} {e K : Int} (he : -1300 ≤ e) (hK : -348 ≤ K)
    (hle : 2 * c * (2 ^ (e + 1300).toNat * 10 ^ (K + 348).toNat) ≤
      2 ^ 1301 * 10 ^ 348 + 2 ^ (e + 1300).toNat * 10 ^ (K + 348).toNat)
    (hge : 2 ^ 1301 * 10 ^ 348 ≤ (2 * c + 1) * (2 ^ (e + 1300).toNat * 10 ^ (K + 348).toNat)) :
    Nearest c e (10 ^ (-K)) := by
  obtain ⟨i, hi⟩ : ∃ i : Nat, e = i - 1300 := ⟨(e + 1300).toNat, by omega⟩
  obtain ⟨j, hj⟩ : ∃ j : Nat, K = j - 348 := ⟨(K + 348).toNat, by omega⟩
  have hi' : (e + 1300).toNat = i := by omega
  have hj' : (K + 348).toNat = j := by omega
  rw [hi', hj'] at hle hge
  have hleq : 2 * (c : ℚ) * (2 ^ i * 10 ^ j) ≤ 2 ^ 1301 * 10 ^ 348 + 2 ^ i * 10 ^ j := by exact_mod_cast hle
  have hgeq : (2 : ℚ) ^ 1301 * 10 ^ 348 ≤ (2 * c + 1) * (2 ^ i * 10 ^ j) := by exact_mod_cast hge
  have hpos : (0 : ℚ) < 2 ^ 1301 * 10 ^ j := by positivity
  have hunit : (2 : ℚ) ^ (e - 1) * (2 ^ 1301 * 10 ^ j) = 2 ^ i * 10 ^ j := by
    rw [← mul_assoc, ← zpow_natCast 2 1301, ← zpow_add₀ (by norm_num), ← zpow_natCast 2 i]
    congr 2
    push_cast
    omega
  have hpower : (10 : ℚ) ^ (-K) * (2 ^ 1301 * 10 ^ j) = 2 ^ 1301 * 10 ^ 348 := by
    rw [mul_left_comm, ← zpow_natCast 10 j, ← zpow_add₀ (by norm_num), ← zpow_natCast 10 348]
    congr 2
    push_cast
    omega
  constructor
  · refine le_of_mul_le_mul_right ?_ hpos
    rw [mul_assoc, hunit, hpower, sub_mul, one_mul]
    exact sub_le_iff_le_add.2 hleq
  · refine le_of_mul_le_mul_right ?_ hpos
    rw [mul_assoc, hunit, hpower]
    exact hgeq

theorem getCachedPower_entry {e K : Int} {c : DiyFp} (h : getCachedPower e = some (c, K)) :
    ∃ i : Nat, kCachedPowers_F[i]? = some c.f ∧ kCachedPowers_E[i]? = some c.e ∧ K = 348 - i * 8 := by
  unfold getCachedPower at h
  obtain ⟨f, hf, h⟩ := Option.bind_eq_some_iff.1 h
  obtain ⟨ce, he, h⟩ := Option.bind_eq_some_iff.1 h
  obtain ⟨rfl, rfl⟩ := Prod.mk.inj (Option.some.inj h)
  exact ⟨_, hf, he, by omega⟩

theorem getCachedPower_nearest {e K : Int} {c : DiyFp} (h : getCachedPower e = some (c, K)) :
    Nearest c.f.toNat c.e (10 ^ (-K)) ∧ -348 ≤ K ∧ K ≤ 348 := by
  obtain ⟨i, hf, he, rfl⟩ := getCachedPower_entry h
  have hi : i < 87 := (List.getElem?_eq_some_iff.1 hf).1
  have hall := entryNearest_all i hi
  rw [List.getD_eq_getElem?_getD, hf, List.getD_eq_getElem?_getD, he, Option.getD_some, Option.getD_some] at hall
  simp only [entryNearest, Bool.and_eq_true, decide_eq_true_eq] at hall
  obtain ⟨⟨hle, hge⟩, hce⟩ := hall
  exact ⟨nearest_of_scaled hce (by omega) hle hge, by omega, by omega⟩

/-! ## The boundaries -/

namespace DiyFp

def value (x : DiyFp) : ℚ := x.f.toNat * 2 ^ x.e

variable {x mi pl w c : DiyFp} {q : Nat} {K : Int}

/-- A product is less than a unit off. -/
theorem mul_near (x : DiyFp) (h : Nearest c.f.toNat c.e (10 ^ (-K))) :
    (((x.mul c).f.toNat : ℚ) - 1) * (2 ^ (x.mul c).e * 10 ^ K) < x.value ∧
      x.value < ((x.mul c).f.toNat + 1) * (2 ^ (x.mul c).e * 10 ^ K) := by
  obtain ⟨hlow, hhigh⟩ := h.mul (w := 63) x.f.toNat_lt (mul_f x c)
  have hpos : (0 : ℚ) < 2 ^ x.e * 10 ^ K := by positivity
  have hexp : (2 : ℚ) ^ (x.mul c).e = 2 ^ (c.e + (63 + 1 : ℕ)) * 2 ^ x.e := by
    have he : (x.mul c).e = c.e + (63 + 1 : ℕ) + x.e := by
      have : (x.mul c).e = x.e + c.e + 64 := rfl
      omega
    rw [he, zpow_add₀ (by norm_num)]
  have hten : (10 : ℚ) ^ (-K) * 10 ^ K = 1 := by
    rw [← zpow_add₀ (by norm_num), neg_add_cancel, zpow_zero]
  have hvalue : (x.f.toNat : ℚ) * 10 ^ (-K) * (2 ^ x.e * 10 ^ K) = x.value := by
    calc (x.f.toNat : ℚ) * 10 ^ (-K) * (2 ^ x.e * 10 ^ K) = x.f.toNat * 2 ^ x.e * (10 ^ (-K) * 10 ^ K) := by ring
      _ = x.value := by rw [hten, mul_one, value]
  have hlow' := mul_lt_mul_of_pos_right hlow hpos
  have hhigh' := mul_lt_mul_of_pos_right hhigh hpos
  rw [hvalue] at hlow' hhigh'
  rw [hexp]
  constructor
  · calc _ = _ := by ring
      _ < _ := hlow'
  · calc _ < _ := hhigh'
      _ = _ := by ring

theorem Exact.pl_value (h : Exact x q mi pl w) : pl.value = (2 * x.f.toNat + 1) * 2 ^ (x.e - 1) := by
  have hexp : (2 : ℚ) ^ (x.e - 1) = 2 ^ q * 2 ^ pl.e := by
    rw [h.pl_e, ← zpow_natCast, ← zpow_add₀ (by norm_num)]
    congr 1
    omega
  rw [value, h.pl_f, hexp]
  push_cast
  ring

theorem Exact.w_value (h : Exact x q mi pl w) : w.value = x.value := by
  have hexp : (2 : ℚ) ^ x.e = 2 * 2 ^ q * 2 ^ w.e := by
    rw [h.w_e, h.pl_e, ← pow_succ', ← zpow_natCast, ← zpow_add₀ (by norm_num)]
    congr 1
    push_cast
    omega
  rw [value, value, h.w_f, hexp]
  push_cast
  ring

theorem Exact.mi_value (h : Exact x q mi pl w) (h0 : x.f.toNat ≠ 0) : (2 * x.f.toNat - 1) * 2 ^ (x.e - 1) ≤ mi.value := by
  have hexp : (2 : ℚ) ^ (x.e - 1) = 2 ^ q * 2 ^ mi.e := by
    rw [h.mi_e, h.pl_e, ← zpow_natCast, ← zpow_add₀ (by norm_num)]
    congr 1
    omega
  have hge : (2 * (x.f.toNat : ℚ) - 1) * 2 ^ q ≤ mi.f.toNat := by
    have hcast : ((2 * x.f.toNat - 1 : ℕ) : ℚ) = 2 * x.f.toNat - 1 := by
      rw [Nat.cast_sub (by omega)]
      push_cast
      ring
    rw [← hcast]
    exact_mod_cast h.mi_ge
  rw [value, hexp, ← mul_assoc]
  exact mul_le_mul_of_nonneg_right hge (by positivity)

theorem Exact.mul_mi_e (h : Exact x q mi pl w) (c : DiyFp) : (mi.mul c).e = (pl.mul c).e := by
  have := h.mi_e
  unfold mul
  dsimp only
  omega

/-- `Wm` and `Wp` enclose `x` and are within its boundaries. -/
theorem Exact.near (h : Exact x q mi pl w) (hx : IsDouble x.f x.e) (hprod : Products mi pl w c)
    (hc : Nearest c.f.toNat c.e (10 ^ (-K))) :
    Near x.f.toNat x.e (((mi.mul c).f.toNat + 1) * (2 ^ (pl.mul c).e * 10 ^ K))
      (((pl.mul c).f.toNat - 1) * (2 ^ (pl.mul c).e * 10 ^ K)) := by
  have hmie := h.mul_mi_e c
  have hpos : (0 : ℚ) ≤ 2 ^ (pl.mul c).e * 10 ^ K := by positivity
  have hmi := mul_near mi hc
  have hpl := mul_near pl hc
  have hw := mul_near w hc
  rw [hmie] at hmi
  rw [← hprod.w_e, h.w_value] at hw
  rw [h.pl_value] at hpl
  refine ⟨(h.mi_value hx.f_ne).trans_lt hmi.2, lt_of_le_of_lt ?_ hw.1, hw.2.le.trans ?_, hpl.1⟩
  · have hle : ((mi.mul c).f.toNat : ℚ) + 2 ≤ (w.mul c).f.toNat := by
      exact_mod_cast (show _ + 2 ≤ _ by have := hprod.mi_le; omega)
    exact mul_le_mul_of_nonneg_right (by linarith) hpos
  · have hle : ((w.mul c).f.toNat : ℚ) + 2 ≤ (pl.mul c).f.toNat := by
      exact_mod_cast (show _ + 2 ≤ _ by have := hprod.w_le; omega)
    exact mul_le_mul_of_nonneg_right (by linarith) hpos

end DiyFp

/-! ## The digits -/

/-- `len` digits, times 10^`K`: a decimal near `x`. -/
def Converted (b : FixedBuffer SIZE) (p : Nat) (x : DiyFp) : FixedBuffer SIZE × Nat × Int → Prop :=
  fun (b', len, K) => (1 ≤ len ∧ len ≤ 18) ∧ (len + K - 1).natAbs < 1000 ∧
    ∃ N lo hi, Emitted b p b' len N ∧ Coarsest lo hi N K ∧ Near x.f.toNat x.e lo hi

theorem Emitted.bounds {len N : Nat} (h : Emitted b p b' len N) (h1 : 1 ≤ len) : 10 ^ (len - 1) ≤ N ∧ N < 10 ^ len := by
  obtain ⟨⟨ds, rfl, -, hs⟩, hfirst⟩ := h
  exact ⟨hfirst h1, hs.lt⟩

/-- `DigitGen` finds a decimal between the products with `Wm` and `Wp`. -/
theorem Products.digitGen_between {mi pl w c : DiyFp} (h : Products mi pl w c) (beyond : Nat → UInt32) (K : Int)
    (hp : p + 18 ≤ SIZE) :
    Yields (digitGen beyond (w.mul c) ⟨(pl.mul c).f - 1, (pl.mul c).e⟩ ((pl.mul c).f - 1 - ((mi.mul c).f + 1)) b p K)
      fun (b', len, K') => ∃ N kappa, K' = K + kappa ∧ 1 ≤ len ∧ Emitted b p b' len N ∧
        Coarsest (((mi.mul c).f.toNat + 1) * 2 ^ (pl.mul c).e) (((pl.mul c).f.toNat - 1) * 2 ^ (pl.mul c).e) N kappa := by
  have hpl := h.pl_ge
  have hw := h.w_le
  have hmi := h.mi_le
  have hlt := (pl.mul c).f.toNat_lt
  obtain ⟨shift, hgiven⟩ := h.given
  have hshift : (pl.mul c).e = -shift := hgiven.e_eq
  have hgen : Yields (digitGen beyond (w.mul c) ⟨(pl.mul c).f - 1, (pl.mul c).e⟩ ((pl.mul c).f - 1 - ((mi.mul c).f + 1)) b p K)
      (Rounded b p ((pl.mul c).f.toNat - 1) ((pl.mul c).f.toNat - 1 - ((mi.mul c).f.toNat + 1)) shift K) := by
    rw [← h.plus_f, ← h.minus_f, ← h.delta_f]
    exact digitGen_writes hp hgiven
  refine hgen.mono ?_
  rintro ⟨b', len, K'⟩ ⟨N, kappa, hK, h1, hem, hco⟩
  -- The bounds of `DigitGen`, with the factor 2^(-shift).
  have hlo : ((((pl.mul c).f.toNat - 1 : ℕ) : ℚ) - ((pl.mul c).f.toNat - 1 - ((mi.mul c).f.toNat + 1) : ℕ)) / (2 ^ shift : ℕ) =
      ((mi.mul c).f.toNat + 1) * 2 ^ (pl.mul c).e := by
    rw [hshift, mul_zpow_neg, ← Nat.cast_sub (by omega), Nat.sub_sub_self (by omega)]
    push_cast
    rfl
  have hhi : (((pl.mul c).f.toNat - 1 : ℕ) : ℚ) / (2 ^ shift : ℕ) = ((pl.mul c).f.toNat - 1) * 2 ^ (pl.mul c).e := by
    rw [hshift, mul_zpow_neg, Nat.cast_sub (by omega)]
    push_cast
    rfl
  rw [hlo, hhi] at hco
  exact ⟨N, kappa, hK, h1, hem, hco⟩

theorem grisu2_writes (beyond : Nat → UInt32) {value : UInt64} (hp : p + 18 ≤ SIZE) (hfin : biasedExponent value ≠ 0x7FF)
    (h0 : value.toNat % 2 ^ 63 ≠ 0) : Yields (grisu2 beyond value b p) (Converted b p (DiyFp.ofDouble value)) := by
  have hx := DiyFp.ofDouble_isDouble hfin h0
  have hends : Yields (grisu2 beyond value b p) (Generated b) := (grisu2_ends (by omega) hfin h0).yields
  obtain ⟨q, mi, pl, w, c, K, hex, hpower, hprod, heq⟩ := grisu2_digitGen beyond b p hfin h0
  obtain ⟨hc, hKlow, hKhigh⟩ := getCachedPower_nearest hpower
  have hnear := hex.near hx hprod hc
  have hlt := (pl.mul c).f.toNat_lt
  have hrange := hprod.e_range
  rw [heq] at hends ⊢
  refine (hends.and (hprod.digitGen_between beyond K hp)).mono ?_
  rintro ⟨b', len, K'⟩ ⟨⟨-, hlen⟩, N, kappa, rfl, h1, hem, hco⟩
  have hplace := hco.place (hem.bounds h1) h1 (a := -19) (b := 20) ?_ ?_
  · refine ⟨hlen, by omega, N, _, _, hem, ?_, hnear⟩
    rw [add_comm K, ← mul_assoc, ← mul_assoc]
    exact hco.scale K
  · calc (10 : ℚ) ^ (-19 : ℤ) ≤ 1 * 2 ^ (-60 : ℤ) := by norm_num
      _ ≤ 1 * 2 ^ (pl.mul c).e := mul_le_mul_of_nonneg_left (zpow_le_zpow_right₀ (by norm_num) hrange.1) (by norm_num)
      _ ≤ ((mi.mul c).f.toNat + 1) * 2 ^ (pl.mul c).e := mul_le_mul_of_nonneg_right (by linarith) (by positivity)
  · have hle : ((pl.mul c).f.toNat : ℚ) ≤ 2 ^ 64 := by exact_mod_cast hlt.le
    calc ((pl.mul c).f.toNat - 1) * (2 : ℚ) ^ (pl.mul c).e ≤ 2 ^ 64 * 2 ^ (pl.mul c).e :=
          mul_le_mul_of_nonneg_right (by linarith) (by positivity)
      _ ≤ 2 ^ 64 * 1 := mul_le_mul_of_nonneg_left (zpow_le_one_of_nonpos₀ (by norm_num) (by omega)) (by norm_num)
      _ ≤ 10 ^ (20 : ℤ) := by norm_num

/-! ## The text -/

/-- The value of a finite `double`, given by its bits. -/
def doubleValue (u64 : UInt64) : ℚ :=
  if u64 &&& kDpSignMask = 0 then (DiyFp.ofDouble u64).value else -(DiyFp.ofDouble u64).value

/-- The point is between two digits of the decimal. -/
def PointInside (v : ℚ) : Prop := 1 < v ∧ ¬ ∃ n : ℤ, v = n

/-- The text that was written, and when `len` is its length. -/
def Written (b : FixedBuffer SIZE) (p longest : Nat) (whole : Prop) : Nat × FixedBuffer SIZE → Prop :=
  fun (len, b') => ∃ text, b.Writes p (text ++ [0]) b' ∧ (∀ c ∈ text, c ≠ 0) ∧ len ≤ text.length ∧
    text.length ≤ longest ∧ (len = text.length ↔ whole)

theorem magnitude_writes (beyond : Nat → UInt32) {value : UInt64} (hp : p + 18 ≤ SIZE) (hfin : biasedExponent value ≠ 0x7FF)
    (h0 : value.toNat % 2 ^ 63 ≠ 0) :
    Yields (do
      let (b, length, K) ← grisu2 beyond value b p
      let b ← prettify b p length K
      pure (length + 1, b)) (Written b p 25 (PointInside (DiyFp.ofDouble value).value)) := by
  refine yields_bind (grisu2_writes beyond hp hfin h0) ?_
  rintro ⟨b₁, len, K⟩ ⟨⟨h1, h18⟩, hK, N, lo, hi, hem, hco, hnear⟩
  have hpoint := hco.point_iff hnear (hem.bounds h1) h1
  obtain ⟨⟨ds, rfl, hw, hs⟩, -⟩ := hem
  refine yields_bind (prettify_writes hw h1 hK) fun b₂ hw₂ => yields_pure ?_
  obtain ⟨hlen, h25, hiff⟩ := prettified_length h1 h18 hK
  refine ⟨prettified ds K, hw₂, prettified_ne_zero hs.ne_zero, hlen, h25, ?_⟩
  rw [eq_comm, hiff, hpoint]
  refine and_congr_right fun hpos => not_congr ⟨fun ⟨n, hn⟩ => ⟨n, hn⟩, fun ⟨n, hn⟩ => ⟨n.toNat, ?_⟩⟩
  have hn0 : 0 ≤ n := by
    have : (0 : ℚ) < n := by
      rw [← hn]
      exact zero_lt_one.trans hpos
    exact_mod_cast this.le
  have hcast : ((n.toNat : ℤ) : ℚ) = n := by rw [Int.toNat_of_nonneg hn0]
  exact hn.trans hcast.symm

theorem DiyFp.value_nonneg (x : DiyFp) : 0 ≤ x.value := by
  unfold value
  positivity

theorem doubleValue_eq_zero {value : UInt64} (hfin : biasedExponent value ≠ 0x7FF) :
    doubleValue value = 0 ↔ value.toNat % 2 ^ 63 = 0 := by
  have habs : doubleValue value = 0 ↔ (DiyFp.ofDouble value).value = 0 := by
    unfold doubleValue
    split
    · rfl
    · exact neg_eq_zero
  rw [habs]
  constructor
  · intro h
    by_contra h0
    have hf := (DiyFp.ofDouble_isDouble hfin h0).f_ne
    have hpos : (0 : ℚ) < (DiyFp.ofDouble value).value := by
      have : (0 : ℚ) < (DiyFp.ofDouble value).f.toNat := by exact_mod_cast Nat.pos_of_ne_zero hf
      unfold DiyFp.value
      positivity
    exact hpos.ne' h
  · intro h0
    have hb : biasedExponent value = 0 := by
      rw [biasedExponent_eq]
      omega
    have hf : (DiyFp.ofDouble value).f.toNat = 0 := by
      have hsig := and_significandMask value
      unfold DiyFp.ofDouble
      simp only [hb, ne_eq, not_true_eq_false, if_false]
      omega
    rw [DiyFp.value, hf, Nat.cast_zero, zero_mul]

/-- `dtoa_milo` counts the digits and a point. -/
theorem dtoaMilo_writes (beyond : Nat → UInt32) {value : UInt64} (hp : p + 27 ≤ SIZE) (hfin : biasedExponent value ≠ 0x7FF) :
    Yields (dtoaMilo beyond value b p) (Written b p 26 (doubleValue value = 0 ∨ PointInside (doubleValue value))) := by
  unfold dtoaMilo
  refine yields_bind (ends_guard (P := fun _ => True) hfin trivial).yields fun _ _ => ?_
  have hmag : value &&& ~~~kDpSignMask = 0 ↔ value.toNat % 2 ^ 63 = 0 := by
    rw [← and_not_signMask, ← UInt64.toNat_inj, UInt64.toNat_zero]
  refine yields_ite (fun hzero => ?_) fun hne => ?_
  · -- 0.0
    refine yields_bind ((b.writes_nil p).store _ (by simp)) fun b₁ h₁ => ?_
    refine yields_bind (h₁.store _ (by simp)) fun b₂ h₂ => ?_
    refine yields_bind (h₂.store _ (by simp)) fun b₃ h₃ => ?_
    refine yields_bind (h₃.store _ (by simp)) fun b₄ h₄ => yields_pure ?_
    have hnul : ∀ c ∈ [Char.toUInt8 '0', Char.toUInt8 '.', Char.toUInt8 '0'], c ≠ 0 := by
      simp only [List.forall_mem_cons]
      exact ⟨by decide, by decide, by decide, List.forall_mem_nil _⟩
    refine ⟨[Char.toUInt8 '0', Char.toUInt8 '.', Char.toUInt8 '0'], h₄, hnul, Nat.le_refl 3, by decide, ?_⟩
    exact iff_of_true rfl (.inl ((doubleValue_eq_zero hfin).2 (hmag.1 hzero)))
  have h0 : value.toNat % 2 ^ 63 ≠ 0 := mt hmag.2 hne
  have hvalue : doubleValue value ≠ 0 := mt (doubleValue_eq_zero hfin).1 h0
  by_cases hsign : value &&& kDpSignMask = 0
  · have hpos : doubleValue value = (DiyFp.ofDouble value).value := if_pos hsign
    rw [if_neg (not_not_intro hsign), hpos]
    refine (magnitude_writes beyond (by omega) hfin h0).mono ?_
    rintro ⟨len, b'⟩ ⟨text, hw, hnul, hle, h25, hiff⟩
    exact ⟨text, hw, hnul, hle, by omega, by rw [hiff, ← hpos, or_iff_right hvalue]⟩
  · -- The sign is not counted.
    have hneg : doubleValue value < 0 := by
      refine lt_of_le_of_ne ?_ hvalue
      rw [doubleValue, if_neg hsign]
      exact neg_nonpos.2 (DiyFp.value_nonneg _)
    have hmod := xor_signMask_mod value
    have hfin' : biasedExponent (value ^^^ kDpSignMask) ≠ 0x7FF := by rwa [biasedExponent_xor_signMask]
    rw [if_pos hsign]
    refine yields_bind (P := fun r => ∃ b₁, b.Writes p [Char.toUInt8 '-'] b₁ ∧ r = (b₁, ((p + 1 : ℕ) : Int), value ^^^ kDpSignMask))
      ?_ ?_
    · exact yields_bind ((b.writes_nil p).store _ (by simp)) fun b₁ h₁ => yields_pure ⟨b₁, h₁, by push_cast; rfl⟩
    · rintro _ ⟨b₁, h₁, rfl⟩
      refine (magnitude_writes beyond (by omega) hfin' (by omega)).mono ?_
      rintro ⟨len, b'⟩ ⟨text, hw, hnul, hle, h25, -⟩
      refine ⟨Char.toUInt8 '-' :: text, h₁.append hw, ?_, ?_, ?_, ?_⟩
      · exact List.forall_mem_cons.2 ⟨by decide, hnul⟩
      · rw [List.length_cons]
        omega
      · rw [List.length_cons]
        omega
      · rw [List.length_cons]
        refine iff_of_false (by omega) ?_
        rintro (h | ⟨h, -⟩)
        · exact hvalue h
        · exact absurd (h.trans hneg) (by norm_num)

end Ycnt

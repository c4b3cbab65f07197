import Mathlib.Tactic.IntervalCases
import Ycnt.Base.Utils.DiyFp
import Ycnt.Base.Utils.Text
/-!
# `dtoa_milo` ends within its bytes

`DigitGen` produces at most 18 digits: with `n` digits before the point and `m`
turns of the loop behind it, `delta` has grown to `delta * 10^m` and is still
below `2^shift`, where `10^(n-1) * 2^shift` is below `2^64`.
-/

namespace Ycnt

open Total Bits FixedBuffer

variable {SIZE : Nat} {b : FixedBuffer SIZE} {buffer : Int}

theorem grisuRound_ends {len : Nat} {delta rest ten_kappa wp_w : UInt64} (hb : 0 ≤ buffer ∧ buffer + len ≤ SIZE)
    (hlen : 1 ≤ len) (hrest : rest.toNat ≤ delta.toNat) (hten : 0 < ten_kappa.toNat) :
    Ends (grisuRound b buffer len delta rest ten_kappa wp_w) b.Keeps := by
  have hdelta := delta.toNat_lt
  unfold grisuRound
  apply ends_loop (I := fun s => b.Keeps s.1 ∧ s.2.toNat ≤ delta.toNat) (m := fun s => delta.toNat - s.2.toNat)
  · rintro ⟨b₁, rest⟩ ⟨hk₁, hle⟩
    dsimp only at hk₁ hle ⊢
    apply ends_ite
    · rintro ⟨-, hten', -⟩
      -- `rest` grows by `ten_kappa` and stays within `delta`.
      have hsub : (delta - rest).toNat = delta.toNat - rest.toNat :=
        UInt64.toNat_sub_of_le _ _ (UInt64.le_iff_toNat_le.2 hle)
      have hroom : ten_kappa.toNat ≤ delta.toNat - rest.toNat := hsub ▸ UInt64.le_iff_toNat_le.1 hten'
      have hadd : (rest + ten_kappa).toNat = rest.toNat + ten_kappa.toNat := by
        rw [UInt64.toNat_add]
        omega
      refine ends_bind (b₁.load_ends (by omega)) fun c _ => ?_
      refine ends_bind (b₁.store_ends (by omega) _) fun b₂ hk₂ => ends_pure ?_
      refine ⟨⟨hk₁.trans hk₂, ?_⟩, ?_⟩
      · dsimp only
        omega
      · dsimp only
        omega
    · intro _
      exact ends_pure hk₁
  · exact ⟨b.keeps_refl, hrest⟩
  · dsimp only [turns]
    omega

/-! ## The digits -/

theorem countDecimalDigit32_spec (n : UInt32) :
    1 ≤ countDecimalDigit32 n ∧ countDecimalDigit32 n ≤ 10 ∧ n.toNat < 10 ^ countDecimalDigit32 n ∧
      (0 < n.toNat → 10 ^ (countDecimalDigit32 n - 1) ≤ n.toNat) := by
  have hlt := n.toNat_lt
  unfold countDecimalDigit32
  simp only [UInt32.lt_iff_toNat_lt, UInt32.reduceToNat]
  repeat' split
  all_goals
    simp only [Nat.reducePow, Nat.reduceSub]
    omega

theorem kPow10_toNat (beyond : Nat → UInt32) {i : Nat} (hi : i ≤ 9) : (kPow10 beyond i).toNat = 10 ^ i := by
  interval_cases i <;> rfl

theorem digit_ends {j : Nat} (hj : j ≤ 9) (p1 : UInt32) :
    Ends (digit (j + 1 : Nat) p1) fun r => r.1.toNat = p1.toNat / 10 ^ j ∧ r.2.toNat = p1.toNat % 10 ^ j := by
  interval_cases j
  · refine ends_some ⟨?_, ?_⟩
    · rw [pow_zero, Nat.div_one]
    · rw [pow_zero, Nat.mod_one]
      rfl
  all_goals exact ends_some ⟨UInt32.toNat_div _ _, UInt32.toNat_mod _ _⟩

/-- What `DigitGen` leaves: at least one digit and at most 18. -/
def Generated (b : FixedBuffer SIZE) : FixedBuffer SIZE × Nat × Int → Prop :=
  fun (b', len, _) => b.Keeps b' ∧ 1 ≤ len ∧ len ≤ 18

/-- The loop over the digits before the point, `n` of them; `shift` bits are behind it. -/
structure Integral (b : FixedBuffer SIZE) (n shift : Nat) (b' : FixedBuffer SIZE) (len : Nat) (kappa : Int) (p1 : UInt32)
    (p2 delta : UInt64) : Prop where
  keeps : b.Keeps b'
  kappa_nonneg : 0 ≤ kappa
  count : len + kappa = n
  p1_lt : p1.toNat < 10 ^ kappa.toNat
  first : len = 0 → 10 ^ (kappa.toNat - 1) ≤ p1.toNat
  p2_lt : p2.toNat < 2 ^ shift
  delta_ge : 766 ≤ delta.toNat
  last : kappa = 0 → delta.toNat < p2.toNat

/-- The loop over the digits behind the point. -/
structure Fraction (b : FixedBuffer SIZE) (n shift : Nat) (b' : FixedBuffer SIZE) (len : Nat) (kappa : Int)
    (p2 delta : UInt64) : Prop where
  keeps : b.Keeps b'
  kappa_nonpos : kappa ≤ 0
  count : len + kappa = n
  p2_lt : p2.toNat < 2 ^ shift
  delta_le : delta.toNat ≤ p2.toNat
  delta_ge : 766 * 10 ^ (len - n) ≤ delta.toNat

/-- `one` is 1 with `shift` bits behind the point, and the first of `n` digits before it fits. -/
structure Places (one : DiyFp) (n shift : Nat) : Prop where
  e_eq : one.e = -shift
  f_eq : one.f.toNat = 2 ^ shift
  shift_le : shift ≤ 60
  n_ge : 1 ≤ n
  n_le : n ≤ 10
  first_lt : 10 ^ (n - 1) * 2 ^ shift < 2 ^ 64

section

variable {beyond : Nat → UInt32} {one wp_w : DiyFp} {K : Int} {n shift : Nat} {b' : FixedBuffer SIZE} {len : Nat}
  {kappa : Int} {p1 : UInt32} {p2 delta : UInt64}

/-- The first digit is not zero. -/
theorem Integral.digit_ne {d : UInt32} {j : Nat} (h : Integral b n shift b' len kappa p1 p2 delta) (hj : kappa = (j + 1 : Nat))
    (hd : d.toNat = p1.toNat / 10 ^ j) : d ≠ 0 ∨ len ≠ 0 := by
  by_cases hlen : len = 0
  · left
    rintro rfl
    have hfirst := h.first hlen
    have hexp : kappa.toNat - 1 = j := by omega
    rw [hexp] at hfirst
    have hpos : 1 ≤ p1.toNat / 10 ^ j := (Nat.one_le_div_iff (by positivity)).2 hfirst
    rw [← hd, UInt32.toNat_zero] at hpos
    omega
  · exact .inr hlen

/-- A turn before the point at the place `j`: the digit `d`, and `tmp` is what is left. -/
theorem integralDigit_eq (beyond : Nat → UInt32) (wp_w : DiyFp) (buffer K : Int) {j : Nat} (hone : Places one n shift)
    (h : Integral b n shift b' len kappa p1 p2 delta) (hj : kappa = (j + 1 : Nat)) :
    ∃ (d p1' : UInt32) (tmp ten_kappa : UInt64), d.toNat = p1.toNat / 10 ^ j ∧ p1'.toNat = p1.toNat % 10 ^ j ∧
      (d ≠ 0 ∨ len ≠ 0) ∧ tmp.toNat = p1'.toNat * 2 ^ shift + p2.toNat ∧ ten_kappa.toNat = 10 ^ j * 2 ^ shift ∧
      integralDigit beyond one wp_w buffer K ⟨b', len, kappa, p1, p2, delta⟩ = (do
        let b₁ ← b'.store (buffer + len) (Char.toUInt8 '0' + d.toUInt8)
        if tmp ≤ delta then do
          let b₂ ← grisuRound b₁ buffer (len + 1) delta tmp ten_kappa wp_w.f
          pure (.inr (.inl (b₂, len + 1, K + j)))
        else pure (.inl ⟨b₁, len + 1, j, p1', p2, delta⟩)) := by
  obtain ⟨he, -, hshift, -, hn, hfirst⟩ := hone
  have hcount := h.count
  have hj0 : 0 < 10 ^ j := by positivity
  have hpow : 10 ^ j * 2 ^ shift < 2 ^ 64 := by
    refine lt_of_le_of_lt (Nat.mul_le_mul_right _ ?_) hfirst
    exact Nat.pow_le_pow_right (by omega) (by omega)
  obtain ⟨⟨d, p1'⟩, hdigit, hd, hp1⟩ := digit_ends (j := j) (by omega) p1
  have hp1lt : p1'.toNat + 1 ≤ 10 ^ j := hp1 ▸ Nat.mod_lt _ hj0
  have hroom : p1'.toNat * 2 ^ shift + 2 ^ shift < 2 ^ 64 := by
    have := Nat.mul_le_mul_right (2 ^ shift) hp1lt
    rw [Nat.add_mul, one_mul] at this
    omega
  have hne := h.digit_ne hj hd
  have hp2 := h.p2_lt
  have hten : (kPow10 beyond j).toUInt64.toNat = 10 ^ j := by rw [UInt32.toNat_toUInt64, kPow10_toNat _ (by omega)]
  obtain ⟨hi, hhi, hhi'⟩ : Ends (shl p1'.toUInt64 (-one.e)) _ :=
    shl_ends (k := shift) (by omega) (by omega) (by rw [UInt32.toNat_toUInt64]; omega)
  obtain ⟨ten_kappa, hshl, hshl'⟩ : Ends (shl (kPow10 beyond j).toUInt64 (-one.e)) _ :=
    shl_ends (k := shift) (by omega) (by omega) (by rwa [hten])
  rw [UInt32.toNat_toUInt64] at hhi'
  rw [hten] at hshl'
  refine ⟨d, p1', hi + p2, ten_kappa, hd, hp1, hne, ?_, hshl', ?_⟩
  · rw [UInt64.toNat_add, hhi']
    omega
  · have hpos : 0 < kappa := by omega
    have hk : kappa - 1 = j := by omega
    unfold integralDigit Digits.emit
    dsimp only
    rw [if_pos hpos, hj, hdigit, Option.bind_eq_bind, Option.bind_some, if_pos hne]
    rw [hj] at hk
    simp only [Option.bind_eq_bind, Option.bind_assoc, Option.pure_def, Option.bind_some, hhi, hk, Int.toNat_natCast, hshl]

theorem integralDigit_ends (hb : 0 ≤ buffer ∧ buffer + 18 ≤ SIZE) (hone : Places one n shift)
    (h : Integral b n shift b' len kappa p1 p2 delta) :
    Ends (integralDigit beyond one wp_w buffer K ⟨b', len, kappa, p1, p2, delta⟩) (Sum.elim
      (fun ⟨b', len, kappa', p1, p2, delta⟩ =>
        Integral b n shift b' len kappa' p1 p2 delta ∧ kappa'.toNat < kappa.toNat)
      (Sum.elim (Generated b) fun ⟨b', len, kappa, p1, p2, delta⟩ =>
        Integral b n shift b' len kappa p1 p2 delta ∧ kappa = 0)) := by
  have hn := hone.n_le
  have hcount := h.count
  have hk0 := h.kappa_nonneg
  by_cases hpos : 0 < kappa
  · obtain ⟨j, hj⟩ : ∃ j : Nat, kappa = (j + 1 : Nat) := ⟨(kappa - 1).toNat, by omega⟩
    obtain ⟨d, p1', tmp, ten_kappa, hd, hp1, -, htmp, hten, heq⟩ :=
      integralDigit_eq beyond wp_w buffer K hone h hj
    rw [heq]
    refine ends_bind (b'.store_ends (by omega) _) fun b₁ hk₁ => ?_
    have hk : b.Keeps b₁ := h.keeps.trans hk₁
    apply ends_ite
    · intro hle
      have hten0 : 0 < ten_kappa.toNat := by
        rw [hten]
        positivity
      refine ends_bind (grisuRound_ends (by omega) (by omega) (UInt64.le_iff_toNat_le.1 hle) hten0) fun b₂ hk₂ =>
        ends_pure ?_
      exact ⟨hk.trans hk₂, by omega, by omega⟩
    · intro hgt
      -- Behind the last of these digits, `p2` is what is left.
      have hlast : (j : Int) = 0 → delta.toNat < p2.toNat := by
        intro hz
        obtain rfl : j = 0 := by omega
        have hp0 : p1'.toNat = 0 := by omega
        rw [hp0, Nat.zero_mul, Nat.zero_add] at htmp
        rw [← htmp]
        exact Nat.lt_of_not_le fun hle => hgt (UInt64.le_iff_toNat_le.2 hle)
      have hp1lt : p1'.toNat < 10 ^ j := hp1 ▸ Nat.mod_lt _ (by positivity)
      have hnext : Integral b n shift b₁ (len + 1) j p1' p2 delta :=
        ⟨hk, by omega, by omega, hp1lt, by omega, h.p2_lt, h.delta_ge, hlast⟩
      exact ends_pure ⟨hnext, by omega⟩
  · unfold integralDigit
    rw [if_neg hpos]
    exact ends_pure ⟨h, by omega⟩

/-- `delta` has grown with every digit, so there is room for one more. -/
theorem Fraction.len_le (h : Fraction b n shift b' len kappa p2 delta) (hone : Places one n shift) : len ≤ 17 := by
  by_contra hgt
  have hn := hone.n_ge
  have hfirst := hone.first_lt
  have hcount := h.count
  have hkappa := h.kappa_nonpos
  have hdelta := h.delta_ge
  have hle := h.delta_le
  have hlt := h.p2_lt
  have hexp : 17 ≤ (len - n) + (n - 1) := by omega
  have hbig : 766 * 10 ^ 17 < 2 ^ 64 :=
    calc 766 * 10 ^ 17 ≤ 766 * 10 ^ (len - n) * 10 ^ (n - 1) := by
          rw [mul_assoc, ← pow_add]
          exact Nat.mul_le_mul_left _ (Nat.pow_le_pow_right (by omega) hexp)
      _ ≤ 2 ^ shift * 10 ^ (n - 1) := Nat.mul_le_mul_right _ (by omega)
      _ < 2 ^ 64 := by rwa [mul_comm]
  omega

/-- `one.f - 1` masks what is behind the point. -/
theorem and_one_sub {x onef : UInt64} (hf : onef.toNat = 2 ^ shift) : (x &&& (onef - 1)).toNat = x.toNat % 2 ^ shift := by
  have hpos : 0 < onef.toNat := by
    rw [hf]
    positivity
  rw [UInt64.toNat_and, toNat_pred hpos, hf, Nat.and_two_pow_sub_one_eq_mod]

/-- A turn behind the point: the digit `d`, and what is left. -/
theorem fractionDigit_eq (beyond : Nat → UInt32) (wp_w : DiyFp) (b' : FixedBuffer SIZE) (buffer K kappa : Int) (p1 : UInt32)
    (hone : Places one n shift) (hlen : len ≠ 0) (hp2 : p2.toNat < 2 ^ shift) (hdelta : delta.toNat ≤ p2.toNat) :
    ∃ (d : UInt32) (p2' delta' wp_w' : UInt64), d.toNat = p2.toNat * 10 / 2 ^ shift ∧ p2'.toNat = p2.toNat * 10 % 2 ^ shift ∧
      delta'.toNat = delta.toNat * 10 ∧
      fractionDigit beyond one wp_w buffer K ⟨b', len, kappa, p1, p2, delta⟩ = (do
        let b₁ ← b'.store (buffer + len) (Char.toUInt8 '0' + d.toUInt8)
        if p2' < delta' then do
          let b₂ ← grisuRound b₁ buffer (len + 1) delta' p2' one.f wp_w'
          pure (.inr (b₂, len + 1, K + (kappa - 1)))
        else pure (.inl ⟨b₁, len + 1, kappa - 1, p1, p2', delta'⟩)) := by
  obtain ⟨he, hf, hshift, -, -, -⟩ := hone
  have hpow : 2 ^ shift ≤ 2 ^ 60 := Nat.pow_le_pow_right (by omega) hshift
  have hten : (10 : UInt64).toNat = 10 := rfl
  have hp2ten : (p2 * 10).toNat = p2.toNat * 10 := by
    rw [UInt64.toNat_mul, hten]
    omega
  have hdeltaten : (delta * 10).toNat = delta.toNat * 10 := by
    rw [UInt64.toNat_mul, hten]
    omega
  obtain ⟨r, hr, hr'⟩ : Ends (shr (p2 * 10) (-one.e)) _ := shr_ends (k := shift) (by omega) (by omega)
  rw [hp2ten] at hr'
  have hr10 : r.toNat < 10 := by
    rw [hr', Nat.div_lt_iff_lt_mul (by positivity)]
    omega
  have hd : r.toUInt8.toUInt32.toNat = r.toNat := by
    rw [UInt8.toNat_toUInt32, UInt64.toNat_toUInt8]
    omega
  refine ⟨r.toUInt8.toUInt32, p2 * 10 &&& (one.f - 1), delta * 10,
    wp_w.f * (kPow10 beyond (-(kappa - 1)).toNat).toUInt64, hd.trans hr', ?_, hdeltaten, ?_⟩
  · rw [and_one_sub hf, hp2ten]
  · unfold fractionDigit Digits.emit
    dsimp only
    rw [hr, Option.bind_eq_bind, Option.bind_some, if_pos (.inr hlen)]
    simp only [Option.bind_eq_bind, Option.bind_assoc, Option.pure_def, Option.bind_some]

theorem fractionDigit_ends (hb : 0 ≤ buffer ∧ buffer + 18 ≤ SIZE) (hone : Places one n shift)
    (h : Fraction b n shift b' len kappa p2 delta) :
    Ends (fractionDigit beyond one wp_w buffer K ⟨b', len, kappa, p1, p2, delta⟩) (Sum.elim
      (fun ⟨b', len', kappa, _, p2, delta⟩ => Fraction b n shift b' len' kappa p2 delta ∧ 18 - len' < 18 - len)
      (Generated b)) := by
  have hn := hone.n_ge
  have hlen := h.len_le hone
  have hcount := h.count
  have hkappa := h.kappa_nonpos
  obtain ⟨d, p2', delta', wp_w', -, hp2', hdelta', heq⟩ := fractionDigit_eq beyond wp_w b' buffer K kappa p1 hone
    (show len ≠ 0 by omega) h.p2_lt h.delta_le
  rw [heq]
  refine ends_bind (b'.store_ends (by omega) _) fun b₁ hk₁ => ?_
  have hk : b.Keeps b₁ := h.keeps.trans hk₁
  apply ends_ite
  · intro hlt
    have hpos : 0 < one.f.toNat := by
      rw [hone.f_eq]
      positivity
    have hle := (UInt64.lt_iff_toNat_lt.1 hlt).le
    refine ends_bind (grisuRound_ends (by omega) (by omega) hle hpos) fun b₂ hk₂ => ends_pure ?_
    exact ⟨hk.trans hk₂, by omega, by omega⟩
  · intro hge
    have hle : delta'.toNat ≤ p2'.toNat := Nat.le_of_not_lt fun hlt => hge (UInt64.lt_iff_toNat_lt.2 hlt)
    have hgrown : 766 * 10 ^ (len + 1 - n) ≤ delta'.toNat := by
      have hge := h.delta_ge
      have hexp : len + 1 - n = (len - n) + 1 := by omega
      rw [hexp, pow_succ, hdelta']
      omega
    have hmod : p2'.toNat < 2 ^ shift := hp2' ▸ Nat.mod_lt _ (by positivity)
    have hnext : Fraction b n shift b₁ (len + 1) (kappa - 1) p2' delta' :=
      ⟨hk, by omega, by omega, hmod, hle, hgrown⟩
    exact ends_pure ⟨hnext, by omega⟩

end

theorem sub_ends {x y : DiyFp} (he : x.e = y.e) (hf : y.f.toNat ≤ x.f.toNat) : Ends (x.sub y) fun _ => True := by
  unfold DiyFp.sub
  refine ends_bind (ends_guard (P := fun _ => True) he trivial) fun _ _ => ?_
  refine ends_bind (ends_guard (P := fun _ => True) (UInt64.le_iff_toNat_le.2 hf) trivial) fun _ _ => ?_
  exact ends_pure trivial

/-- What is before the point fits 32 bits. -/
theorem integral_toNat {f hi : UInt64} {shift : Nat} (hshift : 32 ≤ shift) (hhi : hi.toNat = f.toNat / 2 ^ shift) :
    hi.toUInt32.toNat = f.toNat / 2 ^ shift := by
  have hpow : 2 ^ 32 ≤ 2 ^ shift := Nat.pow_le_pow_right (by omega) hshift
  rw [UInt64.toNat_toUInt32, hhi]
  apply Nat.mod_eq_of_lt
  rw [Nat.div_lt_iff_lt_mul (by positivity)]
  calc f.toNat < 2 ^ 32 * 2 ^ 32 := f.toNat_lt
    _ ≤ 2 ^ 32 * 2 ^ shift := Nat.mul_le_mul_left _ hpow

/-- The digits of `f` before the point are counted right, and they fit. -/
theorem Integral.start {f onef hi delta : UInt64} {shift : Nat} (hshift : 32 ≤ shift ∧ shift ≤ 60) (hf : 2 ^ 60 ≤ f.toNat)
    (honef : onef.toNat = 2 ^ shift) (hhi : hi.toNat = f.toNat / 2 ^ shift) (hdelta : 766 ≤ delta.toNat) :
    ∃ n, countDecimalDigit32 hi.toUInt32 = n ∧ (1 ≤ n ∧ n ≤ 10) ∧ 10 ^ (n - 1) * 2 ^ shift < 2 ^ 64 ∧
      Integral b n shift b 0 n hi.toUInt32 (f &&& (onef - 1)) delta := by
  have hlt64 := f.toNat_lt
  have hpow : 2 ^ shift ≤ 2 ^ 60 := Nat.pow_le_pow_right (by omega) hshift.2
  have hpos : 0 < 2 ^ shift := by positivity
  have hp1 : hi.toUInt32.toNat = f.toNat / 2 ^ shift := integral_toNat hshift.1 hhi
  have hp1pos : 0 < hi.toUInt32.toNat := by
    rw [hp1]
    exact Nat.div_pos (by omega) hpos
  have hp2 : (f &&& (onef - 1)).toNat < 2 ^ shift := by
    rw [and_one_sub honef]
    exact Nat.mod_lt _ hpos
  obtain ⟨hn1, hn10, hlt, hge⟩ := countDecimalDigit32_spec hi.toUInt32
  have hfirst : 10 ^ (countDecimalDigit32 hi.toUInt32 - 1) * 2 ^ shift < 2 ^ 64 :=
    calc 10 ^ (countDecimalDigit32 hi.toUInt32 - 1) * 2 ^ shift ≤ hi.toUInt32.toNat * 2 ^ shift :=
          Nat.mul_le_mul_right _ (hge hp1pos)
      _ ≤ f.toNat := by rw [hp1]; exact Nat.div_mul_le_self _ _
      _ < 2 ^ 64 := hlt64
  exact ⟨_, rfl, ⟨hn1, hn10⟩, hfirst, b.keeps_refl, by omega, by omega, hlt, fun _ => hge hp1pos, hp2, hdelta, by omega⟩

/-- What `DigitGen` is given: `shift` bits of `Mp` are behind the point, `W` is not
above it, and `delta` is neither tiny nor all of it. -/
structure Given (W Mp : DiyFp) (delta : UInt64) (shift : Nat) : Prop where
  e_eq : Mp.e = -shift
  shift_range : 32 ≤ shift ∧ shift ≤ 60
  w_e : Mp.e = W.e
  w_le : W.f.toNat ≤ Mp.f.toNat
  mp_ge : 2 ^ 60 ≤ Mp.f.toNat
  delta_ge : 766 ≤ delta.toNat
  delta_lt : delta.toNat < Mp.f.toNat

/-- What `DigitGen` starts with, with `n` digits before the point. -/
theorem digitGen_start {W Mp : DiyFp} {delta : UInt64} {shift : Nat} (b : FixedBuffer SIZE) (h : Given W Mp delta shift) :
    ∃ (onef hi : UInt64) (wp_w : DiyFp) (n : Nat), shl 1 (-Mp.e) = some onef ∧ Mp.sub W = some wp_w ∧
      shr Mp.f (-Mp.e) = some hi ∧ countDecimalDigit32 hi.toUInt32 = n ∧ Places ⟨onef, Mp.e⟩ n shift ∧
      hi.toUInt32.toNat * 2 ^ shift + (Mp.f &&& (onef - 1)).toNat = Mp.f.toNat ∧
      Integral b n shift b 0 n hi.toUInt32 (Mp.f &&& (onef - 1)) delta := by
  obtain ⟨he, hshift, hWe, hWf, hMp, hdelta, -⟩ := h
  obtain ⟨onef, hshl, honef⟩ : Ends (shl 1 (-Mp.e)) fun r => r.toNat = 2 ^ shift := by
    refine (shl_ends (k := shift) (by omega) (by omega) ?_).mono fun r hr => ?_
    · rw [UInt64.toNat_one, Nat.one_mul]
      exact Nat.pow_lt_pow_right (by omega) (by omega)
    · rwa [UInt64.toNat_one, Nat.one_mul] at hr
  obtain ⟨wp_w, hsub, -⟩ := sub_ends hWe hWf
  obtain ⟨hi, hshr, hhi⟩ : Ends (shr Mp.f (-Mp.e)) _ := shr_ends (k := shift) (by omega) (by omega)
  obtain ⟨n, hcount, hn, hfirst, hstart⟩ := Integral.start (b := b) hshift hMp honef hhi hdelta
  have hone : Places ⟨onef, Mp.e⟩ n shift := ⟨he, honef, hshift.2, hn.1, hn.2, hfirst⟩
  have hall : hi.toUInt32.toNat * 2 ^ shift + (Mp.f &&& (onef - 1)).toNat = Mp.f.toNat := by
    rw [integral_toNat hshift.1 hhi, and_one_sub honef, Nat.mul_comm]
    exact Nat.div_add_mod _ _
  exact ⟨onef, hi, wp_w, n, hshl, hsub, hshr, hcount, hone, hall, hstart⟩

/-- `DigitGen` is its two loops. -/
theorem digitGen_eq (beyond : Nat → UInt32) {W Mp : DiyFp} {delta : UInt64} {shift : Nat} (b : FixedBuffer SIZE)
    (buffer K : Int) (h : Given W Mp delta shift) :
    ∃ (one wp_w : DiyFp) (n : Nat) (p1 : UInt32) (p2 : UInt64), Places one n shift ∧
      p1.toNat * 2 ^ shift + p2.toNat = Mp.f.toNat ∧
      Integral b n shift b 0 n p1 p2 delta ∧ digitGen beyond W Mp delta b buffer K =
        (loop (integralDigit beyond one wp_w buffer K) turns ⟨b, 0, n, p1, p2, delta⟩ >>=
          Sum.elim pure (loop (fractionDigit beyond one wp_w buffer K) turns)) := by
  obtain ⟨onef, hi, wp_w, n, hshl, hsub, hshr, hcount, hone, hall, hstart⟩ := digitGen_start b h
  refine ⟨⟨onef, Mp.e⟩, wp_w, n, hi.toUInt32, Mp.f &&& (onef - 1), hone, hall, hstart, ?_⟩
  unfold digitGen
  simp only [hshl, hsub, hshr, hcount, Option.bind_eq_bind, Option.bind_some]
  refine Option.bind_congr fun r _ => ?_
  cases r <;> rfl

theorem digitGen_ends {beyond : Nat → UInt32} {W Mp : DiyFp} {delta : UInt64} {K : Int} {shift : Nat}
    (hb : 0 ≤ buffer ∧ buffer + 18 ≤ SIZE) (h : Given W Mp delta shift) :
    Ends (digitGen beyond W Mp delta b buffer K) (Generated b) := by
  obtain ⟨one, wp_w, n, p1, p2, hone, -, hstart, heq⟩ := digitGen_eq beyond b buffer K h
  have hn := hone.n_le
  rw [heq]
  have hloop : Ends (loop (integralDigit beyond one wp_w buffer K) turns ⟨b, 0, n, p1, p2, delta⟩)
      (Sum.elim (Generated b) fun ⟨b', len, kappa, p1, p2, delta⟩ =>
        Integral b n shift b' len kappa p1 p2 delta ∧ kappa = 0) := by
    apply ends_loop (I := fun ⟨b', len, kappa, p1, p2, delta⟩ => Integral b n shift b' len kappa p1 p2 delta)
      (m := fun s => s.kappa.toNat)
    · intro _ hs
      exact integralDigit_ends hb hone hs
    · exact hstart
    · dsimp only [turns]
      omega
  refine ends_bind hloop ?_
  rintro (r | ⟨b', len, kappa, p1, p2, delta⟩) hr
  · exact ends_pure hr
  · obtain ⟨hs, hkappa⟩ := hr
    have hcount := hs.count
    have hdelta := hs.delta_ge
    have hlen : len - n = 0 := by omega
    apply ends_loop (I := fun ⟨b', len, kappa, _, p2, delta⟩ => Fraction b n shift b' len kappa p2 delta)
      (m := fun s => 18 - s.len)
    · intro _ hs
      exact fractionDigit_ends hb hone hs
    · exact ⟨hs.keeps, by omega, hcount, hs.p2_lt, (hs.last hkappa).le, by rw [hlen]; omega⟩
    · dsimp only [turns]
      omega

/-! ## The whole conversion -/

/-- The products with the cached power `c` are as far apart as `DigitGen` needs. -/
structure Products (mi pl w c : DiyFp) : Prop where
  e_range : -60 ≤ (pl.mul c).e ∧ (pl.mul c).e ≤ -32
  w_e : (pl.mul c).e = (w.mul c).e
  pl_ge : 2 ^ 62 ≤ (pl.mul c).f.toNat
  w_le : (w.mul c).f.toNat + 2 ^ 9 ≤ (pl.mul c).f.toNat
  mi_le : (mi.mul c).f.toNat + 2 ^ 8 ≤ (w.mul c).f.toNat

section

variable {x mi pl w c : DiyFp} {q : Nat}

theorem DiyFp.Exact.pl_e_range (h : Exact x q mi pl w) (hx : IsDouble x.f x.e) : -1137 ≤ pl.e ∧ pl.e ≤ 960 := by
  have hbits := h.bits
  have he := h.pl_e
  have hlog := hx.log2_le
  have hge := hx.e_ge
  have hle := hx.e_le
  omega

theorem DiyFp.Exact.products (h : Exact x q mi pl w) (hx : IsDouble x.f x.e)
    (hc : 2 ^ 63 ≤ c.f.toNat ∧ -124 ≤ pl.e + c.e ∧ pl.e + c.e ≤ -96) : Products mi pl w c := by
  have hbd := h.boundaries hx
  have hWpe : (pl.mul c).e = pl.e + c.e + 64 := rfl
  have hWe : (w.mul c).e = w.e + c.e + 64 := rfl
  have hwe := h.w_e
  exact ⟨by omega, by omega, mul_ge hbd.pl_ge hc.1, mul_gap (d := 2 ^ 9) hc.1 hbd.w_le, mul_gap (d := 2 ^ 8) hc.1 h.mi_le⟩

theorem Products.plus_f (h : Products mi pl w c) : ((pl.mul c).f - 1).toNat = (pl.mul c).f.toNat - 1 :=
  toNat_pred (by have := h.pl_ge; omega)

theorem Products.minus_f (h : Products mi pl w c) : ((mi.mul c).f + 1).toNat = (mi.mul c).f.toNat + 1 := by
  have hw := h.w_le
  have hmi := h.mi_le
  have hlt := (pl.mul c).f.toNat_lt
  exact toNat_succ (by omega)

theorem Products.delta_f (h : Products mi pl w c) : ((pl.mul c).f - 1 - ((mi.mul c).f + 1)).toNat =
    ((pl.mul c).f - 1).toNat - ((mi.mul c).f + 1).toNat := by
  have hw := h.w_le
  have hmi := h.mi_le
  exact UInt64.toNat_sub_of_le _ _ (UInt64.le_iff_toNat_le.2 (by rw [h.plus_f, h.minus_f]; omega))

/-- `Grisu2` gives `DigitGen` what it needs. -/
theorem Products.given (h : Products mi pl w c) : ∃ shift, Given (w.mul c) ⟨(pl.mul c).f - 1, (pl.mul c).e⟩
    ((pl.mul c).f - 1 - ((mi.mul c).f + 1)) shift := by
  have hrange := h.e_range
  have hge := h.pl_ge
  have hw := h.w_le
  have hmi := h.mi_le
  refine ⟨(-(pl.mul c).e).toNat, ?_, ?_, h.w_e, ?_, ?_, ?_, ?_⟩
  · show (pl.mul c).e = _
    omega
  · omega
  · rw [h.plus_f]
    omega
  · rw [h.plus_f]
    omega
  · rw [h.delta_f, h.plus_f, h.minus_f]
    omega
  · rw [h.delta_f, h.plus_f, h.minus_f]
    omega

end

/-- What `Grisu2` computes before `DigitGen`. -/
theorem grisu2_start {value : UInt64} (hfin : biasedExponent value ≠ 0x7FF) (h0 : value.toNat % 2 ^ 63 ≠ 0) :
    ∃ q mi pl w c K, DiyFp.Exact (DiyFp.ofDouble value) q mi pl w ∧ getCachedPower pl.e = some (c, K) ∧
      Products mi pl w c ∧ (DiyFp.ofDouble value).normalizedBoundaries = some (mi, pl) ∧
      (DiyFp.ofDouble value).normalize = some w ∧
      mi.f.toNat + 2 ^ DiyFp.minusBits (DiyFp.ofDouble value).f.toNat q = w.f.toNat := by
  have hv := DiyFp.ofDouble_isDouble hfin h0
  obtain ⟨w, hw, hnormal⟩ := DiyFp.normalize_ends hv.f_ne
  obtain ⟨⟨mi, pl⟩, hbounds, q, hex, hmi⟩ := DiyFp.normalizedBoundaries_exact hv hnormal
  obtain ⟨⟨c, K⟩, hpower, hc⟩ := getCachedPower_ends (hex.pl_e_range hv)
  exact ⟨q, mi, pl, w, c, K, hex, hpower, hex.products hv hc, hbounds, hw, hmi⟩

/-- `Grisu2` is `DigitGen` between the products. -/
theorem grisu2_digitGen (beyond : Nat → UInt32) {value : UInt64} (b : FixedBuffer SIZE) (buffer : Int)
    (hfin : biasedExponent value ≠ 0x7FF) (h0 : value.toNat % 2 ^ 63 ≠ 0) :
    ∃ q mi pl w c K, DiyFp.Exact (DiyFp.ofDouble value) q mi pl w ∧ getCachedPower pl.e = some (c, K) ∧
      Products mi pl w c ∧ grisu2 beyond value b buffer =
        digitGen beyond (w.mul c) ⟨(pl.mul c).f - 1, (pl.mul c).e⟩ ((pl.mul c).f - 1 - ((mi.mul c).f + 1)) b buffer K := by
  obtain ⟨q, mi, pl, w, c, K, hex, hpower, hprod, hbounds, hw, -⟩ := grisu2_start hfin h0
  refine ⟨q, mi, pl, w, c, K, hex, hpower, hprod, ?_⟩
  unfold grisu2
  simp only [hbounds, hpower, hw, Option.bind_eq_bind, Option.bind_some]

theorem grisu2_ends {beyond : Nat → UInt32} {value : UInt64} (hb : 0 ≤ buffer ∧ buffer + 18 ≤ SIZE)
    (hfin : biasedExponent value ≠ 0x7FF) (h0 : value.toNat % 2 ^ 63 ≠ 0) :
    Ends (grisu2 beyond value b buffer) (Generated b) := by
  obtain ⟨q, mi, pl, w, c, K, -, -, hprod, heq⟩ := grisu2_digitGen beyond b buffer hfin h0
  obtain ⟨shift, hgiven⟩ := hprod.given
  rw [heq]
  exact digitGen_ends hb hgiven

theorem ofDouble_xor_signMask (value : UInt64) : DiyFp.ofDouble (value ^^^ kDpSignMask) = DiyFp.ofDouble value := by
  have hsig : (value ^^^ kDpSignMask) &&& kDpSignificandMask = value &&& kDpSignificandMask := by
    have hmod := xor_signMask_mod value
    rw [← UInt64.toNat_inj, and_significandMask, and_significandMask]
    omega
  unfold DiyFp.ofDouble
  rw [biasedExponent_xor_signMask, hsig]

/-- What `dtoa_milo` goes on with behind the sign. -/
structure Magnitude (b : FixedBuffer SIZE) (buffer : Int) (value : UInt64) (r : FixedBuffer SIZE × Int × UInt64) : Prop where
  keeps : b.Keeps r.1
  buffer_ge : buffer ≤ r.2.1
  buffer_le : r.2.1 ≤ buffer + 1
  finite : biasedExponent r.2.2 ≠ 0x7FF
  nonzero : r.2.2.toNat % 2 ^ 63 ≠ 0
  same : DiyFp.ofDouble r.2.2 = DiyFp.ofDouble value

theorem magnitude_ends {value : UInt64} (hb : 0 ≤ buffer ∧ buffer + 1 ≤ SIZE) (hfin : biasedExponent value ≠ 0x7FF)
    (h0 : value.toNat % 2 ^ 63 ≠ 0) :
    Ends (if value &&& kDpSignMask ≠ 0 then do
        pure (← b.store buffer (Char.toUInt8 '-'), buffer + 1, value ^^^ kDpSignMask)
      else pure (b, buffer, value)) (Magnitude b buffer value) := by
  apply ends_ite
  · intro _
    refine ends_bind (b.store_ends (by omega) _) fun b₁ hk₁ => ends_pure ?_
    refine ⟨hk₁, ?_, Int.le_refl _, ?_, ?_, ofDouble_xor_signMask value⟩
    · dsimp only
      omega
    · rwa [biasedExponent_xor_signMask]
    · rwa [xor_signMask_mod]
  · intro _
    refine ends_pure ⟨b.keeps_refl, Int.le_refl _, ?_, hfin, h0, rfl⟩
    dsimp only
    omega

/-- `dtoa_milo` stores 27 bytes at most, and returns no more than 19. -/
theorem dtoaMilo_ends (beyond : Nat → UInt32) {value : UInt64} (hb : 0 ≤ buffer ∧ buffer + 27 ≤ SIZE)
    (hfin : biasedExponent value ≠ 0x7FF) :
    Ends (dtoaMilo beyond value b buffer) fun (len, b') => len ≤ 19 ∧ b.Keeps b' := by
  unfold dtoaMilo
  refine ends_bind (ends_guard (P := fun _ => True) hfin trivial) fun _ _ => ?_
  apply ends_ite
  · -- 0.0
    intro _
    refine ends_bind (b.store_ends (by omega) _) fun b₁ hk₁ => ?_
    refine ends_bind (b₁.store_ends (by omega) _) fun b₂ hk₂ => ?_
    refine ends_bind (b₂.store_ends (by omega) _) fun b₃ hk₃ => ?_
    refine ends_bind (b₃.store_ends (by omega) _) fun b₄ hk₄ => ends_pure ?_
    exact ⟨by omega, ((hk₁.trans hk₂).trans hk₃).trans hk₄⟩
  intro hne
  have h0 : value.toNat % 2 ^ 63 ≠ 0 := by
    rw [← and_not_signMask]
    intro hz
    exact hne (UInt64.toNat_inj.1 hz)
  refine ends_bind (magnitude_ends (by omega) hfin h0) ?_
  rintro ⟨b₁, p, value'⟩ hmag
  have hlow : buffer ≤ p := hmag.buffer_ge
  have hhigh : p ≤ buffer + 1 := hmag.buffer_le
  refine ends_bind (grisu2_ends (by omega) hmag.finite hmag.nonzero) ?_
  rintro ⟨b₂, length, K⟩ ⟨hk₂, hlen1, hlen18⟩
  refine ends_bind (prettify_ends (by omega) ⟨hlen1, hlen18⟩) fun b₃ hk₃ => ends_pure ?_
  exact ⟨by omega, (hmag.keeps.trans hk₂).trans hk₃⟩

end Ycnt

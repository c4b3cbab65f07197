import Ycnt.Base.Utils.Grisu
import Ycnt.Lib.Numeral
import Ycnt.Lib.Rounding
/-!
# The digits of `DigitGen`

`DigitGen` takes the digits of `Mp` off, from the highest on, until what is left is
no more than `delta`, and `GrisuRound` takes the last one down within `delta`. So
the text spells a number between `Mp - delta` and `Mp`, and none of the numbers
with a digit less lies there.
-/

namespace Ycnt

open Total FixedBuffer Numeral Rounding

variable {SIZE : Nat} {b b' : FixedBuffer SIZE} {p : Nat}

theorem digit_pred {d : Nat} (h1 : 1 ≤ d) (h : d < 10) : Numeral.digit d - 1 = Numeral.digit (d - 1) := by
  have hone : (1 : UInt8).toNat = 1 := rfl
  rw [← UInt8.toNat_inj, digit_toNat (by omega), UInt8.toNat_sub_of_le _ _ (UInt8.le_iff_toNat_le.2 (by rw [digit_toNat h]; omega)),
    digit_toNat h, hone]
  omega

/-! ## The last digit -/

/-- `GrisuRound` takes the last digit down `m` times: not below zero, where the
digit itself is more than `delta` away. -/
theorem grisuRound_writes {ds : List UInt8} {d len : Nat} {delta rest ten_kappa wp_w : UInt64}
    (hw : b.Writes p (ds ++ [Numeral.digit d]) b') (hd : d < 10) (hlen : len = ds.length + 1)
    (hrest : rest.toNat ≤ delta.toNat) (hstop : delta.toNat ≤ d * ten_kappa.toNat + rest.toNat) (hten : 0 < ten_kappa.toNat) :
    Yields (grisuRound b' p len delta rest ten_kappa wp_w) fun b'' => ∃ m ≤ d,
      rest.toNat + m * ten_kappa.toNat ≤ delta.toNat ∧ b.Writes p (ds ++ [Numeral.digit (d - m)]) b'' := by
  have hdelta := delta.toNat_lt
  unfold grisuRound
  refine yields_loop (I := fun s => ∃ m ≤ d, s.2.toNat = rest.toNat + m * ten_kappa.toNat ∧ s.2.toNat ≤ delta.toNat ∧
    b.Writes p (ds ++ [Numeral.digit (d - m)]) s.1) ?_ ?_
  · rintro ⟨b₁, r⟩ ⟨m, hm, hr, hle, h₁⟩
    dsimp only at hr hle h₁ ⊢
    refine yields_ite ?_ fun _ => yields_pure ⟨m, hm, hr ▸ hle, h₁⟩
    rintro ⟨-, hten', -⟩
    have hsub : (delta - r).toNat = delta.toNat - r.toNat :=
      UInt64.toNat_sub_of_le _ _ (UInt64.le_iff_toNat_le.2 hle)
    have hroom : ten_kappa.toNat ≤ delta.toNat - r.toNat := hsub ▸ UInt64.le_iff_toNat_le.1 hten'
    have hadd : (r + ten_kappa).toNat = r.toNat + ten_kappa.toNat := by
      rw [UInt64.toNat_add]
      omega
    have hmul : (m + 1) * ten_kappa.toNat ≤ d * ten_kappa.toNat := by
      rw [Nat.add_mul, one_mul]
      omega
    have hmd : m + 1 ≤ d := Nat.le_of_mul_le_mul_right hmul hten
    refine yields_bind (h₁.load (by omega)) ?_
    rintro _ rfl
    refine yields_bind (h₁.set _ (by omega)) fun b₂ h₂ => yields_pure ⟨m + 1, hmd, ?_, ?_, ?_⟩
    · rw [hadd, hr, Nat.add_mul, one_mul]
      omega
    · dsimp only
      omega
    · rw [digit_pred (by omega) (by omega)] at h₂
      exact h₂
  · exact ⟨0, Nat.zero_le _, by simp, hrest, hw⟩

/-! ## The digits before the last -/

/-- `len` digits are in the buffer, and they spell `N`. -/
structure Emitted (b : FixedBuffer SIZE) (p : Nat) (b' : FixedBuffer SIZE) (len N : Nat) : Prop where
  text : ∃ ds, ds.length = len ∧ b.Writes p ds b' ∧ Spells ds N
  first : 0 < len → 10 ^ (len - 1) ≤ N

theorem Emitted.concat {ds : List UInt8} {len N d : Nat} (hlen : ds.length = len) (hw : b.Writes p (ds ++ [Numeral.digit d]) b')
    (hs : Spells ds N) (hfirst : 0 < len → 10 ^ (len - 1) ≤ N) (hd : d < 10) (hpos : len = 0 → 1 ≤ d) :
    Emitted b p b' (len + 1) (10 * N + d) := by
  refine ⟨⟨_, by simp [hlen], hw, hs.concat hd⟩, fun _ => ?_⟩
  rw [Nat.add_sub_cancel]
  rcases Nat.eq_zero_or_pos len with h0 | h0
  · rw [h0, pow_zero]
    have := hpos h0
    omega
  · have := hfirst h0
    have hlen' : len = len - 1 + 1 := by omega
    rw [hlen', pow_succ]
    omega

/-- What `DigitGen` leaves, where `Mp` is `M` and `delta` was `D`: a number of
`len` digits within the last `D` of `M`. -/
def Rounded (b : FixedBuffer SIZE) (p M D shift : Nat) (K : Int) : FixedBuffer SIZE × Nat × Int → Prop :=
  fun (b', len, K') => ∃ N kappa, K' = K + kappa ∧ 1 ≤ len ∧ Emitted b p b' len N ∧
    Coarsest (((M : ℚ) - D) / (2 ^ shift : ℕ)) (M / (2 ^ shift : ℕ)) N kappa

/-- The loop over the digits before the point: the digits, then what is left in `p1` and `p2`. -/
def Counting (b : FixedBuffer SIZE) (p M D shift : Nat) : Digits SIZE → Prop :=
  fun ⟨b', len, kappa, p1, p2, delta⟩ => ∃ N, Emitted b p b' len N ∧
    (N * 10 ^ kappa.toNat + p1.toNat) * 2 ^ shift + p2.toNat = M ∧ delta.toNat = D ∧
    D < p1.toNat * 2 ^ shift + p2.toNat

section

variable {beyond : Nat → UInt32} {one wp_w : DiyFp} {K : Int} {n shift M D : Nat} {len : Nat}
  {kappa : Int} {p1 : UInt32} {p2 delta : UInt64}

/-- The place `j` digits before the point. -/
theorem place_integral (j : Nat) : (10 : ℚ) ^ (j : Int) = (10 ^ j * 2 ^ shift : ℕ) / ((2 ^ shift : ℕ) * (1 : ℕ)) := by
  push_cast
  rw [zpow_natCast, mul_one]
  exact (mul_div_cancel_right₀ _ (by positivity)).symm

theorem integralDigit_writes (hone : Places one n shift) (h : Integral b n shift b' len kappa p1 p2 delta)
    (hc : Counting b p M D shift ⟨b', len, kappa, p1, p2, delta⟩) :
    Yields (integralDigit beyond one wp_w p K ⟨b', len, kappa, p1, p2, delta⟩) (Sum.elim (Counting b p M D shift)
      (Sum.elim (Rounded b p M D shift K) fun s => Counting b p M D shift s)) := by
  by_cases hpos : 0 < kappa
  swap
  · unfold integralDigit
    rw [if_neg hpos]
    exact yields_pure hc
  obtain ⟨N, ⟨⟨ds, hlen, hw, hs⟩, hfirst⟩, hsum, rfl, hstop⟩ := hc
  obtain ⟨j, hj⟩ : ∃ j : Nat, kappa = (j + 1 : Nat) := ⟨(kappa - 1).toNat, by omega⟩
  have hkn : kappa.toNat = j + 1 := by omega
  have hj0 : 0 < 10 ^ j := by positivity
  have hu : 0 < 2 ^ shift := by positivity
  obtain ⟨d, p1', tmp, ten_kappa, hd, hp1, hne, htmp, hten, heq⟩ :=
    integralDigit_eq beyond wp_w p K hone h hj
  have hp1d : p1.toNat = d.toNat * 10 ^ j + p1'.toNat := by
    rw [hd, hp1, Nat.mul_comm]
    exact (Nat.div_add_mod _ _).symm
  have hp1lt := h.p1_lt
  rw [hkn] at hp1lt
  have hd10 : d.toNat < 10 := by
    rw [hd, Nat.div_lt_iff_lt_mul hj0]
    rw [pow_succ] at hp1lt
    omega
  rw [heq]
  refine yields_bind (hw.store _ (by omega)) fun b₁ hw₁ => ?_
  have hw₁ : b.Writes p (ds ++ [Numeral.digit d.toNat]) b₁ := hw₁
  -- The new digit has gone from what is left to the number.
  have hleft : p1.toNat * 2 ^ shift + p2.toNat = d.toNat * (10 ^ j * 2 ^ shift) + tmp.toNat := by
    rw [hp1d, htmp]
    ring
  have hsum' : ((10 * N + d.toNat) * 10 ^ j + p1'.toNat) * 2 ^ shift + p2.toNat = M := by
    rw [← hsum, hkn, hp1d]
    ring
  refine yields_ite (fun hle => ?_) fun hgt => ?_
  · have hle' : tmp.toNat ≤ delta.toNat := UInt64.le_iff_toNat_le.1 hle
    have hten0 : 0 < ten_kappa.toNat := by
      rw [hten]
      positivity
    refine yields_bind (grisuRound_writes hw₁ hd10 (by omega) hle' (by rw [hten]; omega) hten0) ?_
    rintro b₂ ⟨m, -, hrest, hw₂⟩
    rw [hten] at hrest
    -- The first digit stays above zero.
    have hmd : m < d.toNat := by
      have hlt : m * (10 ^ j * 2 ^ shift) < d.toNat * (10 ^ j * 2 ^ shift) := by omega
      exact Nat.lt_of_mul_lt_mul_right hlt
    refine yields_pure ⟨10 * N + (d.toNat - m), j, rfl, by omega,
      Emitted.concat hlen hw₂ hs hfirst (by omega) (by omega), ?_⟩
    refine coarsest_of_rest (w := 10 ^ j * 2 ^ shift) (s := 1) (v := 10 ^ (j + 1) * 2 ^ shift) (t := 1) (N := N)
      (r := tmp.toNat + m * (10 ^ j * 2 ^ shift)) (q := p1.toNat * 2 ^ shift + p2.toNat)
      hu Nat.one_pos Nat.one_pos (place_integral j) ?_ ?_ (by omega) ?_ ?_ (by omega)
    · exact place_integral (j + 1)
    · have hdm : 10 * N + d.toNat = 10 * N + (d.toNat - m) + m := by omega
      rw [htmp, mul_one, ← hsum', hdm]
      ring
    · rw [mul_one, ← hsum, hkn]
      ring
    · have := Nat.mul_le_mul_right (2 ^ shift) (Nat.succ_le_of_lt hp1lt)
      rw [Nat.succ_mul] at this
      have := h.p2_lt
      omega
  · have hgt' : delta.toNat < tmp.toNat := Nat.lt_of_not_le fun hle => hgt (UInt64.le_iff_toNat_le.2 hle)
    refine yields_pure ⟨10 * N + d.toNat, Emitted.concat hlen hw₁ hs hfirst hd10 ?_, hsum', rfl, htmp ▸ hgt'⟩
    intro h0
    rcases hne with hne | hne
    · by_contra hlt
      exact hne (UInt32.toNat_inj.1 (by rw [UInt32.toNat_zero]; omega))
    · exact absurd h0 hne

/-- The loop over the digits behind the point, after `j` of them: `p2` and `delta` have grown with each. -/
def Scaling (b : FixedBuffer SIZE) (p M D shift : Nat) : Digits SIZE → Prop :=
  fun ⟨b', len, kappa, _, p2, delta⟩ => ∃ N j : Nat, kappa = -(j : Int) ∧ 0 < len ∧ Emitted b p b' len N ∧
    N * 2 ^ shift + p2.toNat = M * 10 ^ j ∧ delta.toNat = D * 10 ^ j

/-- The place `j` digits behind the point. -/
theorem place_fraction (j : Nat) : (10 : ℚ) ^ (-(j : Int)) = (2 ^ shift : ℕ) / ((2 ^ shift : ℕ) * (10 ^ j : ℕ)) := by
  push_cast
  rw [zpow_neg, zpow_natCast, div_mul_cancel_left₀ (by positivity)]

theorem fractionDigit_writes (hone : Places one n shift) (h : Fraction b n shift b' len kappa p2 delta) (hs : Scaling b p M D shift ⟨b', len, kappa, p1, p2, delta⟩) :
    Yields (fractionDigit beyond one wp_w p K ⟨b', len, kappa, p1, p2, delta⟩)
      (Sum.elim (Scaling b p M D shift) (Rounded b p M D shift K)) := by
  obtain ⟨N, j, rfl, hlen0, ⟨⟨ds, hlen, hw, hds⟩, hfirst⟩, hsum, hdelta⟩ := hs
  have hp2lt := h.p2_lt
  have hu : 0 < 2 ^ shift := by positivity
  have hf := hone.f_eq
  obtain ⟨d, p2', delta', wp_w', hd, hp2', hdelta', heq⟩ :=
    fractionDigit_eq beyond wp_w b' p K (-(j : Int)) p1 hone hlen0.ne' hp2lt h.delta_le
  have hd10 : d.toNat < 10 := by
    rw [hd, Nat.div_lt_iff_lt_mul hu]
    omega
  have hdiv : d.toNat * 2 ^ shift + p2'.toNat = p2.toNat * 10 := by
    rw [hd, hp2', Nat.mul_comm]
    exact Nat.div_add_mod _ _
  rw [heq]
  refine yields_bind (hw.store _ (by omega)) fun b₁ hw₁ => ?_
  have hw₁ : b.Writes p (ds ++ [Numeral.digit d.toNat]) b₁ := hw₁
  have hkappa : -(j : Int) - 1 = -((j + 1 : Nat) : Int) := by omega
  have hsum' : (10 * N + d.toNat) * 2 ^ shift + p2'.toNat = M * 10 ^ (j + 1) := by
    rw [pow_succ, ← mul_assoc, ← hsum, Nat.add_mul]
    have := hdiv
    rw [Nat.mul_assoc, Nat.add_mul]
    omega
  have hdelta10 : delta'.toNat = D * 10 ^ (j + 1) := by rw [hdelta', hdelta, pow_succ, mul_assoc]
  refine yields_ite (fun hlt => ?_) fun _ => ?_
  · have hle := (UInt64.lt_iff_toNat_lt.1 hlt).le
    have hstop := h.delta_le
    refine yields_bind (grisuRound_writes hw₁ hd10 (by omega) hle (by rw [hf]; omega) (by omega)) ?_
    rintro b₂ ⟨m, hm, hrest, hw₂⟩
    rw [hf] at hrest
    refine yields_pure ⟨10 * N + (d.toNat - m), -(j : Int) - 1, rfl, by omega,
      Emitted.concat hlen hw₂ hds hfirst (by omega) (by omega), ?_⟩
    refine coarsest_of_rest (w := 2 ^ shift) (s := 10 ^ (j + 1)) (v := 2 ^ shift) (t := 10 ^ j) (N := N)
      (r := p2'.toNat + m * 2 ^ shift) (q := p2.toNat)
      hu (by positivity) (by positivity) ?_ ?_ ?_ (by omega) hsum hp2lt (by omega)
    · rw [hkappa, place_fraction]
    · rw [Int.sub_add_cancel, place_fraction]
    · have hdm : 10 * N + d.toNat = 10 * N + (d.toNat - m) + m := by omega
      rw [← hsum', hdm]
      ring
  · exact yields_pure ⟨10 * N + d.toNat, j + 1, hkappa, by omega, Emitted.concat hlen hw₁ hds hfirst hd10 (by omega), hsum',
      hdelta10⟩

end

theorem emitted_nil (b : FixedBuffer SIZE) (p : Nat) : Emitted b p b 0 0 :=
  ⟨⟨[], rfl, b.writes_nil p, spells_nil⟩, fun h => absurd h (Nat.lt_irrefl 0)⟩

theorem digitGen_writes {beyond : Nat → UInt32} {W Mp : DiyFp} {delta : UInt64} {K : Int} {shift : Nat}
    (hp : p + 18 ≤ SIZE) (h : Given W Mp delta shift) :
    Yields (digitGen beyond W Mp delta b p K) (Rounded b p Mp.f.toNat delta.toNat shift K) := by
  have hb : 0 ≤ (p : Int) ∧ (p : Int) + 18 ≤ SIZE := by omega
  obtain ⟨one, wp_w, n, p1, p2, hone, hall, hstart, heq⟩ := digitGen_eq beyond b p K h
  have hn := hone.n_ge
  rw [heq]
  have hloop : Yields (loop (integralDigit beyond one wp_w p K) turns ⟨b, 0, n, p1, p2, delta⟩)
      (Sum.elim (Rounded b p Mp.f.toNat delta.toNat shift K) fun s =>
        (Integral b n shift s.b s.len s.kappa s.p1 s.p2 s.delta ∧ s.kappa = 0) ∧
          Counting b p Mp.f.toNat delta.toNat shift s) := by
    refine yields_loop (I := fun s => Integral b n shift s.b s.len s.kappa s.p1 s.p2 s.delta ∧
      Counting b p Mp.f.toNat delta.toNat shift s) ?_ ?_
    · rintro ⟨b', len, kappa, p1, p2, delta'⟩ ⟨hs, hc⟩
      refine ((integralDigit_ends hb hone hs).yields.and (integralDigit_writes hone hs hc)).mono ?_
      rintro (s | r | s) ⟨h, h'⟩
      · exact ⟨h.1, h'⟩
      · exact h'
      · exact ⟨h, h'⟩
    · exact ⟨hstart, 0, emitted_nil b p, by simpa using hall, rfl, by rw [hall]; exact h.delta_lt⟩
  refine yields_bind hloop ?_
  rintro (r | ⟨b', len, kappa, p1, p2, delta'⟩) hr
  · exact yields_pure hr
  · obtain ⟨⟨hs, hkappa⟩, N, hem, hsum, hdelta', -⟩ := hr
    obtain rfl : kappa = 0 := hkappa
    have hs : Integral b n shift b' len 0 p1 p2 delta' := hs
    have hcount := hs.count
    have hdelta_ge := hs.delta_ge
    have hp1 := hs.p1_lt
    rw [Int.toNat_zero, pow_zero, Nat.lt_one_iff] at hp1
    rw [hp1, Int.toNat_zero, pow_zero, mul_one, Nat.add_zero] at hsum
    have hlen : len - n = 0 := by omega
    refine yields_loop (I := fun s => Fraction b n shift s.b s.len s.kappa s.p2 s.delta ∧
      Scaling b p Mp.f.toNat delta.toNat shift s) ?_ ?_
    · rintro ⟨b', len, kappa, p1, p2, delta'⟩ ⟨hs, hc⟩
      refine ((fractionDigit_ends hb hone hs).yields.and (fractionDigit_writes hone hs hc)).mono ?_
      rintro (s | r) ⟨h, h'⟩
      · exact ⟨h.1, h'⟩
      · exact h'
    · refine ⟨⟨hs.keeps, Int.le_refl _, hcount, hs.p2_lt, (hs.last rfl).le, by rw [hlen]; omega⟩, ?_⟩
      exact ⟨N, 0, rfl, by omega, hem, by simpa using hsum, by simpa using hdelta'⟩

end Ycnt

import Mathlib.Tactic.Ring
import Ycnt.Lib.Bits
import Ycnt.Base.Utils
/-!
# The boundaries of a double and the cached power

For a finite `double` other than zero, with significand `f` and exponent `e`:
`Normalize`, `NormalizedBoundaries` and `GetCachedPower` do not fail, the two
boundaries are far enough apart for `DigitGen` to end, and the product with the
cached power has an exponent from -60 to -32.
-/

namespace Ycnt

open Total Bits

/-! ## Bits of a double -/

theorem and_significandMask (x : UInt64) : (x &&& kDpSignificandMask).toNat = x.toNat % 2 ^ 52 := toNat_and_mask rfl

theorem biasedExponent_eq (x : UInt64) : biasedExponent x = x.toNat / 2 ^ 52 % 2 ^ 11 := by
  have hshift : (52 : UInt64).toNat % 64 = 52 := rfl
  have hmask : kDpExponentMask.toNat >>> 52 = 2 ^ 11 - 1 := rfl
  unfold biasedExponent
  rw [UInt64.toNat_shiftRight, UInt64.toNat_and, hshift, Nat.shiftRight_and_distrib, hmask,
    Nat.and_two_pow_sub_one_eq_mod, Nat.shiftRight_eq_div_pow]

theorem and_not_signMask (x : UInt64) : (x &&& ~~~kDpSignMask).toNat = x.toNat % 2 ^ 63 := toNat_and_mask rfl

/-- `-value` has the magnitude of `value`. -/
theorem xor_signMask_mod (x : UInt64) : (x ^^^ kDpSignMask).toNat % 2 ^ 63 = x.toNat % 2 ^ 63 := by
  have hsign : kDpSignMask.toNat % 2 ^ 63 = 0 := rfl
  rw [UInt64.toNat_xor, Nat.xor_mod_two_pow, hsign, Nat.xor_zero]

theorem biasedExponent_xor_signMask (x : UInt64) : biasedExponent (x ^^^ kDpSignMask) = biasedExponent x := by
  have hmod := xor_signMask_mod x
  rw [biasedExponent_eq, biasedExponent_eq]
  omega

theorem shift_toNat {k : Nat} (hk : k < 64) : (k : Int).toNat.toUInt64.toNat % 64 = k := by
  rw [Int.toNat_natCast, Nat.toUInt64, UInt64.toNat_ofNat']
  omega

theorem shl_ends {a : UInt64} {s : Int} {k : Nat} (hs : s = k) (hk : k < 64) (ha : a.toNat * 2 ^ k < 2 ^ 64) :
    Ends (shl a s) fun r => r.toNat = a.toNat * 2 ^ k := by
  subst hs
  unfold shl
  rw [if_pos (by omega)]
  exact ends_some (toNat_shl (shift_toNat hk) ha)

theorem shr_ends {a : UInt64} {s : Int} {k : Nat} (hs : s = k) (hk : k < 64) :
    Ends (shr a s) fun r => r.toNat = a.toNat / 2 ^ k := by
  subst hs
  unfold shr
  rw [if_pos (by omega)]
  exact ends_some (toNat_shr (shift_toNat hk))

namespace DiyFp

/-- `r` is `f * 2^e` with its top bit at bit 63. -/
structure Normal (f : UInt64) (e : Int) (r : DiyFp) : Prop where
  f_eq : r.f.toNat = f.toNat * 2 ^ (63 - f.toNat.log2)
  e_eq : r.e = e - (63 - f.toNat.log2 : Nat)

theorem normalize_ends {x : DiyFp} (h0 : x.f.toNat ≠ 0) : Ends x.normalize (Normal x.f x.e) := by
  have hne : x.f ≠ 0 := by
    intro h
    rw [h] at h0
    exact h0 rfl
  obtain ⟨-, hlt⟩ := shift_top h0 x.f.toNat_lt
  unfold normalize clzll
  rw [if_pos hne]
  refine ends_bind (ends_some (P := fun s => s = 63 - x.f.toNat.log2) rfl) ?_
  rintro s rfl
  exact ends_bind (shl_ends rfl (by omega) hlt) fun f hf => ends_pure ⟨hf, rfl⟩

/-- After some turns of the loop in `NormalizeBoundary`, `j` of them. -/
def Shifted (f : UInt64) (e : Int) (r : DiyFp) : Prop := ∃ j : Nat, r.f.toNat = f.toNat * 2 ^ j ∧ r.e = e - j

theorem Shifted.shift {f : UInt64} {e : Int} {r : DiyFp} (h : Shifted f e r) (hlt : r.f.toNat < 2 ^ 63) :
    Shifted f e ⟨r.f <<< 1, r.e - 1⟩ ∧ (r.f <<< 1).toNat = 2 * r.f.toNat := by
  obtain ⟨j, hf, he⟩ := h
  have hdbl : (r.f <<< 1).toNat = r.f.toNat * 2 ^ 1 := toNat_shl rfl (by omega)
  refine ⟨⟨j + 1, ?_, ?_⟩, by omega⟩
  · rw [pow_succ, ← mul_assoc, ← hf]
    exact hdbl
  · push_cast
    rw [← Int.sub_sub, ← he]

theorem normalizeBoundary_ends {f : UInt64} {e : Int} (h0 : f.toNat ≠ 0) (h : f.toNat < 2 ^ 54) :
    Ends (normalizeBoundary ⟨f, e⟩) (Normal f e) := by
  have hloop : Ends (loop (fun res : DiyFp =>
      some (if res.f &&& (kDpHiddenBit <<< 1) = 0 then .inl ⟨res.f <<< 1, res.e - 1⟩ else .inr res)) turns ⟨f, e⟩)
      fun r => Shifted f e r ∧ 2 ^ 53 ≤ r.f.toNat ∧ r.f.toNat < 2 ^ 54 := by
    -- The significand grows up to bit 53.
    apply ends_loop (I := fun r => Shifted f e r ∧ r.f.toNat ≠ 0 ∧ r.f.toNat < 2 ^ 54) (m := fun r => 2 ^ 54 - r.f.toNat)
    · rintro r ⟨hsh, hne, hlt⟩
      have htest : r.f &&& (kDpHiddenBit <<< 1) = 0 ↔ r.f.toNat < 2 ^ 53 := and_bit_eq_zero rfl hlt
      apply ends_some
      by_cases hbit : r.f.toNat < 2 ^ 53
      · rw [if_pos (htest.2 hbit)]
        obtain ⟨hsh', hdbl⟩ := hsh.shift (by omega)
        exact ⟨⟨hsh', by dsimp only; omega, by dsimp only; omega⟩, by dsimp only; omega⟩
      · rw [if_neg (mt htest.1 hbit)]
        exact ⟨hsh, by omega, hlt⟩
    · exact ⟨⟨0, by simp, by simp⟩, h0, h⟩
    · dsimp only [turns]
      omega
  unfold normalizeBoundary
  refine ends_bind hloop ?_
  rintro r ⟨⟨j, hf, he⟩, hge, hlt⟩
  have hsum : f.toNat.log2 + j = 53 := log2_add_eq h0 (by omega) (by omega)
  have hj : 63 - f.toNat.log2 = j + 10 := by omega
  have hten : ((kDiySignificandSize : Int) - kDpSignificandSize - 2) = (10 : Nat) := rfl
  refine ends_bind (shl_ends hten (by omega) (by omega)) fun f' hf' => ends_pure ?_
  constructor
  · rw [hj, pow_add, ← mul_assoc, ← hf]
    exact hf'
  · rw [hj]
    dsimp only
    omega

/-- The significand and exponent of a `double` other than zero. -/
structure IsDouble (f : UInt64) (e : Int) : Prop where
  f_ne : f.toNat ≠ 0
  f_lt : f.toNat < 2 ^ 53
  e_ge : -1074 ≤ e
  e_le : e ≤ 971

theorem IsDouble.log2_le {f : UInt64} {e : Int} (h : IsDouble f e) : f.toNat.log2 ≤ 52 := by
  have := (Nat.log2_lt h.f_ne).2 h.f_lt
  omega

theorem ofDouble_isDouble {value : UInt64} (hfin : biasedExponent value ≠ 0x7FF) (h0 : value.toNat % 2 ^ 63 ≠ 0) :
    IsDouble (ofDouble value).f (ofDouble value).e := by
  have hsig := and_significandMask value
  have hexp := biasedExponent_eq value
  have hbias : kDpExponentBias = 1075 := rfl
  have hmin : kDpMinExponent = -1075 := rfl
  unfold ofDouble
  by_cases hb : biasedExponent value = 0
  · simp only [hb, ne_eq, not_true_eq_false, if_false]
    exact ⟨by omega, by omega, by omega, by omega⟩
  · have hhid : kDpHiddenBit.toNat = 2 ^ 52 := rfl
    have hf : ((value &&& kDpSignificandMask) + kDpHiddenBit).toNat = value.toNat % 2 ^ 52 + 2 ^ 52 := by
      rw [UInt64.toNat_add, hsig, hhid]
      omega
    simp only [hb, ne_eq, not_false_eq_true, if_true]
    exact ⟨by omega, by omega, by omega, by omega⟩

/-- What `Grisu2` needs of the boundaries `mi` and `pl` of `x`, and of `w`, the normalized `x`. -/
structure Boundaries (x mi pl w : DiyFp) : Prop where
  pl_e : pl.e = x.e - (63 - x.f.toNat.log2 : Nat)
  mi_e : mi.e = pl.e
  w_e : w.e = pl.e
  pl_ge : 2 ^ 63 ≤ pl.f.toNat
  w_le : w.f.toNat + 2 ^ 10 ≤ pl.f.toNat
  mi_le : mi.f.toNat + 3 * 2 ^ 9 ≤ pl.f.toNat

/-- The boundaries `mi` and `pl` of `x`, half a unit away, and the normalized `x`, all
with `q` more bits; below a power of two `mi` is nearer. -/
structure Exact (x : DiyFp) (q : Nat) (mi pl w : DiyFp) : Prop where
  bits : x.f.toNat.log2 + q = 62
  pl_e : pl.e = x.e - 1 - q
  mi_e : mi.e = pl.e
  w_e : w.e = pl.e
  pl_f : pl.f.toNat = (2 * x.f.toNat + 1) * 2 ^ q
  w_f : w.f.toNat = 2 * x.f.toNat * 2 ^ q
  mi_ge : (2 * x.f.toNat - 1) * 2 ^ q ≤ mi.f.toNat
  mi_le : mi.f.toNat + 2 ^ 9 ≤ w.f.toNat

/-- How far the lower boundary is away, in bits: half as far below a power of two. -/
def minusBits (f q : Nat) : Nat := if f = 2 ^ 52 then q - 1 else q

theorem minusBits_range {f q : Nat} (hq : 10 ≤ q) : 9 ≤ minusBits f q ∧ minusBits f q ≤ q := by
  unfold minusBits
  split
  · omega
  · omega

/-- The lower boundary, brought to the exponent of the upper one. -/
theorem minus_ends {f : UInt64} {e ple : Int} {q : Nat} (hf0 : f.toNat ≠ 0) (hf : f.toNat < 2 ^ 53)
    (hq : f.toNat.log2 + q = 62) (hlt : 2 * f.toNat * 2 ^ q < 2 ^ 64) (hple : ple = e - 1 - q) :
    let mi : DiyFp := if f = kDpHiddenBit then ⟨(f <<< 2) - 1, e - 2⟩ else ⟨(f <<< 1) - 1, e - 1⟩
    Ends (shl mi.f (mi.e - ple)) fun r => r.toNat + 2 ^ minusBits f.toNat q = 2 * f.toNat * 2 ^ q := by
  intro mi
  by_cases hhid : f = kDpHiddenBit
  · have hfv : f.toNat = 2 ^ 52 := by rw [hhid]; rfl
    have hlog : f.toNat.log2 = 52 := by rw [hfv]; exact Nat.log2_two_pow
    obtain rfl : q = 10 := by omega
    have hmi : mi = ⟨(f <<< 2) - 1, e - 2⟩ := if_pos hhid
    have hquad : (f <<< 2).toNat = f.toNat * 2 ^ 2 := toNat_shl rfl (by omega)
    have hsub : ((f <<< 2) - 1).toNat = (f <<< 2).toNat - 1 := toNat_pred (by omega)
    have hmif : ((f <<< 2) - 1).toNat = 2 ^ 54 - 1 := by omega
    have hbits : minusBits (2 ^ 52) 10 = 9 := if_pos rfl
    rw [hmi, hfv]
    refine (shl_ends (k := 9) (by dsimp only; omega) (by decide) (by rw [hmif]; decide)).mono fun r hr => ?_
    rw [hr, hmif, hbits]
    decide
  · have hmi : mi = ⟨(f <<< 1) - 1, e - 1⟩ := if_neg hhid
    have hdbl : (f <<< 1).toNat = f.toNat * 2 ^ 1 := toNat_shl rfl (by omega)
    have hsub : ((f <<< 1) - 1).toNat = 2 * f.toNat - 1 := by
      rw [toNat_pred (by omega)]
      omega
    have hmif : (2 * f.toNat - 1) * 2 ^ q + 2 ^ q = 2 * f.toNat * 2 ^ q := by
      rw [← Nat.succ_mul]
      congr 1
      omega
    have hpos : 0 < 2 ^ q := Nat.two_pow_pos q
    have hbits : minusBits f.toNat q = q := if_neg fun h => hhid (UInt64.toNat_inj.1 h)
    rw [hmi]
    refine (shl_ends (k := q) (by dsimp only; omega) (by have := hq; omega) ?_).mono fun r hr => ?_
    · dsimp only
      rw [hsub]
      omega
    · dsimp only at hr
      rw [hr, hsub, hbits]
      exact hmif

theorem normalizedBoundaries_exact {x w : DiyFp} (h : IsDouble x.f x.e) (hw : Normal x.f x.e w) :
    Ends x.normalizedBoundaries fun (mi, pl) =>
      ∃ q, Exact x q mi pl w ∧ mi.f.toNat + 2 ^ minusBits x.f.toNat q = w.f.toNat := by
  have hlog := h.log2_le
  have hf := h.f_lt
  have hf0 := h.f_ne
  obtain ⟨q, hq⟩ : ∃ q, x.f.toNat.log2 + q = 62 := ⟨62 - x.f.toNat.log2, by omega⟩
  have hdbl : (x.f <<< 1).toNat = x.f.toNat * 2 ^ 1 := toNat_shl rfl (by omega)
  have hplus : ((x.f <<< 1) + 1).toNat = 2 * x.f.toNat + 1 := by
    rw [toNat_succ (by omega)]
    omega
  -- The shifts of the upper boundary and of `x` itself.
  have hexp : 63 - (2 * x.f.toNat + 1).log2 = q := by
    rw [log2_two_mul_add_one hf0]
    omega
  have hexp' : 63 - x.f.toNat.log2 = q + 1 := by omega
  unfold normalizedBoundaries
  refine ends_bind (normalizeBoundary_ends (by omega) (by omega)) ?_
  rintro pl ⟨hplf, hple⟩
  rw [hplus, hexp] at hplf hple
  obtain ⟨hwf, hwe⟩ := hw
  rw [hexp'] at hwf hwe
  have hw2 : w.f.toNat = 2 * x.f.toNat * 2 ^ q := by rw [hwf]; ring
  have hbits : 9 ≤ minusBits x.f.toNat q ∧ minusBits x.f.toNat q ≤ q := minusBits_range (by omega)
  have hlow : 2 ^ 9 ≤ 2 ^ minusBits x.f.toNat q := Nat.pow_le_pow_right (by omega) hbits.1
  have hhigh : 2 ^ minusBits x.f.toNat q ≤ 2 ^ q := Nat.pow_le_pow_right (by omega) hbits.2
  refine ends_bind (minus_ends hf0 hf hq (hw2 ▸ w.f.toNat_lt) hple) fun mi hmi => ends_pure ⟨q, ?_, hw2 ▸ hmi⟩
  refine ⟨hq, hple, rfl, by push_cast at hwe; omega, hplf, hw2, ?_, ?_⟩
  · dsimp only
    rw [Nat.sub_mul, one_mul]
    omega
  · dsimp only
    omega

theorem Exact.boundaries {x mi pl w : DiyFp} {q : Nat} (h : Exact x q mi pl w) (hx : IsDouble x.f x.e) :
    Boundaries x mi pl w := by
  have hlog := hx.log2_le
  have hbits := h.bits
  have hple := h.pl_e
  have hq10 : 2 ^ 10 ≤ 2 ^ q := Nat.pow_le_pow_right (by omega) (by omega)
  have hpl : pl.f.toNat = w.f.toNat + 2 ^ q := by rw [h.pl_f, h.w_f, Nat.add_mul, one_mul]
  have hmi := h.mi_le
  have htop : 2 ^ 63 ≤ pl.f.toNat := by
    have hne : 2 * x.f.toNat + 1 ≠ 0 := by omega
    have hexp : 63 - (2 * x.f.toNat + 1).log2 = q := by
      rw [log2_two_mul_add_one hx.f_ne]
      omega
    have := (shift_top hne (by have := hx.f_lt; omega)).1
    rwa [hexp, ← h.pl_f] at this
  exact ⟨by omega, h.mi_e, h.w_e, htop, by omega, by omega⟩

/-- The product, rounded. -/
theorem mul_f (x y : DiyFp) : (x.mul y).f.toNat = (x.f.toNat * y.f.toNat + 2 ^ 63) / 2 ^ 64 := by
  have hx := x.f.toNat_lt
  have hy := y.f.toNat_lt
  have hp : x.f.toNat * y.f.toNat ≤ (2 ^ 64 - 1) * (2 ^ 64 - 1) := Nat.mul_le_mul (by omega) (by omega)
  unfold mul
  simp only
  generalize x.f.toNat * y.f.toNat = p at hp ⊢
  have hh : (p >>> 64).toUInt64.toNat = p / 2 ^ 64 := by
    rw [Nat.toUInt64_eq, UInt64.toNat_ofNat', Nat.shiftRight_eq_div_pow]
    omega
  have hlow : p.toUInt64.toNat = p % 2 ^ 64 := by rw [Nat.toUInt64_eq, UInt64.toNat_ofNat']
  have hl : p.toUInt64 &&& ((1 : UInt64) <<< 63) = 0 ↔ p % 2 ^ 64 < 2 ^ 63 := by
    rw [← hlow]
    exact and_bit_eq_zero rfl p.toUInt64.toNat_lt
  by_cases hlt : p % 2 ^ 64 < 2 ^ 63
  · rw [if_neg (not_not_intro (hl.2 hlt)), hh]
    omega
  · rw [if_pos (mt hl.1 hlt), UInt64.toNat_add, hh, UInt64.toNat_one]
    omega

theorem mul_ge {x y : DiyFp} (hx : 2 ^ 63 ≤ x.f.toNat) (hy : 2 ^ 63 ≤ y.f.toNat) : 2 ^ 62 ≤ (x.mul y).f.toNat := by
  rw [mul_f, Nat.le_div_iff_mul_le (by decide)]
  have := Nat.mul_le_mul hx hy
  omega

/-- Multiplication by at least 2^63 keeps half of a distance. -/
theorem mul_gap {x y c : DiyFp} {d : Nat} (hc : 2 ^ 63 ≤ c.f.toNat) (h : x.f.toNat + 2 * d ≤ y.f.toNat) :
    (x.mul c).f.toNat + d ≤ (y.mul c).f.toNat := by
  rw [mul_f, mul_f]
  have hdist : x.f.toNat * c.f.toNat + 2 ^ 63 + d * 2 ^ 64 ≤ y.f.toNat * c.f.toNat + 2 ^ 63 := by
    have h1 : (x.f.toNat + 2 * d) * c.f.toNat ≤ y.f.toNat * c.f.toNat := Nat.mul_le_mul_right _ h
    have h2 : 2 * d * 2 ^ 63 ≤ 2 * d * c.f.toNat := Nat.mul_le_mul_left _ hc
    rw [Nat.add_mul] at h1
    omega
  calc (x.f.toNat * c.f.toNat + 2 ^ 63) / 2 ^ 64 + d
      = (x.f.toNat * c.f.toNat + 2 ^ 63 + d * 2 ^ 64) / 2 ^ 64 := by
        rw [Nat.add_mul_div_right _ _ (by decide)]
    _ ≤ _ := Nat.div_le_div_right hdist

end DiyFp

/-! ## The cached power -/

/-- The entry of the table for the exponent `e` is normalized and brings the product into range. -/
def cachedPowerFits (e : Int) : Bool :=
  match getCachedPower e with
  | some (c, _) => 2 ^ 63 ≤ c.f.toNat && -124 ≤ e + c.e && e + c.e ≤ -96
  | none => false

theorem cachedPowerFits_all : (List.range 2098).all (fun i => cachedPowerFits (-1137 + (i : Nat))) = true := by
  decide +kernel

theorem getCachedPower_ends {e : Int} (he : -1137 ≤ e ∧ e ≤ 960) :
    Ends (getCachedPower e) fun (c, _) => 2 ^ 63 ≤ c.f.toNat ∧ -124 ≤ e + c.e ∧ e + c.e ≤ -96 := by
  have h := List.all_eq_true.1 cachedPowerFits_all (e + 1137).toNat (List.mem_range.2 (by omega))
  have he' : -1137 + ((e + 1137).toNat : Int) = e := by omega
  rw [he'] at h
  unfold cachedPowerFits at h
  split at h
  · rename_i c K heq
    simp only [Bool.and_eq_true, decide_eq_true_eq] at h
    exact ⟨(c, K), heq, h.1.1, h.1.2, h.2⟩
  · cases h

end Ycnt

import Ycnt.Base.Utils.Shortest
import Ycnt.Lib.Binary
import Ycnt.Lib.Decimal
/-!
# The text of a `double` can be read back

The decimal that `dtoa_milo` writes, sign, point and exponent included, is nearer to the
`double` than to any other one: whoever reads it and rounds to the nearest `double` has
the same again.
-/

namespace Ycnt

open Total FixedBuffer Numeral Rounding

variable {SIZE : Nat} {b b' : FixedBuffer SIZE} {p : Nat}

/-! ## A double among the others -/

namespace DiyFp

theorem ofDouble_normal {value : UInt64} (hfin : biasedExponent value ≠ 0x7FF) (h0 : value.toNat % 2 ^ 63 ≠ 0) :
    Binary.Normal 52 (-1074) (ofDouble value).f.toNat (ofDouble value).e := by
  have hx := ofDouble_isDouble hfin h0
  refine ⟨Nat.pos_of_ne_zero hx.f_ne, hx.e_ge, ?_⟩
  have hsig := and_significandMask value
  have hhid : kDpHiddenBit.toNat = 2 ^ 52 := rfl
  unfold ofDouble
  by_cases hb : biasedExponent value = 0
  · simp only [hb, ne_eq, not_true_eq_false, if_false]
    exact .inr rfl
  · simp only [hb, ne_eq, not_false_eq_true, if_true]
    left
    rw [UInt64.toNat_add, hsig, hhid]
    omega

variable {x mi pl w : DiyFp} {q : Nat} {d : ℚ}

/-- Between the boundaries. -/
theorem Exact.halfway (h : Exact x q mi pl w) (hlow : mi.f.toNat + 2 ^ minusBits x.f.toNat q = w.f.toNat)
    (hx : IsDouble x.f x.e) (hmi : mi.value < d) (hpl : d < pl.value) : Binary.Halfway 52 x.f.toNat x.e d := by
  have hvalue : mi.value = x.value - 2 ^ (minusBits x.f.toNat q + (x.e - 1 - q)) := by
    have hf : (mi.f.toNat : ℚ) = w.f.toNat - 2 ^ minusBits x.f.toNat q := by
      rw [← hlow]
      push_cast
      ring
    rw [← h.w_value, value, value, hf, Binary.zpow_split, zpow_natCast, h.w_e, h.mi_e, h.pl_e]
    ring
  rw [hvalue] at hmi
  rw [h.pl_value] at hpl
  have hdouble := Binary.double_zpow x.e
  have hbits := h.bits
  have hlog := hx.log2_le
  unfold value minusBits at hmi
  refine ⟨?_, fun hpow => ?_, ?_⟩
  · refine lt_of_le_of_lt (sub_le_sub_left (zpow_le_zpow_right₀ (by norm_num) ?_) _) hmi
    split <;> omega
  · rw [if_pos hpow] at hmi
    have he : ((q - 1 : ℕ) : ℤ) + (x.e - 1 - q) = x.e - 2 := by omega
    rwa [he] at hmi
  · rw [← hdouble]
    linarith

end DiyFp

theorem doubleValue_representable {value : UInt64} (hfin : biasedExponent value ≠ 0x7FF) :
    Binary.Representable 52 (-1074) (doubleValue value) := by
  by_cases h0 : value.toNat % 2 ^ 63 = 0
  · rw [(doubleValue_eq_zero hfin).2 h0]
    exact Binary.representable_zero
  have hx := DiyFp.ofDouble_isDouble hfin h0
  have hf := hx.f_lt
  have hmag : Binary.Representable 52 (-1074) (DiyFp.ofDouble value).value := by
    refine ⟨(DiyFp.ofDouble value).f.toNat, _, ?_, hx.e_ge, by rw [DiyFp.value]; push_cast; rfl⟩
    rw [abs_of_nonneg (by omega)]
    exact_mod_cast hf
  unfold doubleValue
  split
  · exact hmag
  · exact hmag.neg

/-! ## What the layouts say -/

variable {ds : List UInt8} {k : Int} {N : Nat}

theorem prettified_magnitude (hs : Spells ds N) (hne : ds ≠ []) :
    Decimal.magnitude (prettified ds k) = some (N * 10 ^ k : ℚ) := by
  have hzero : Spells [Char.toUInt8 '0'] 0 := spells_zeros 1
  have hlen : 0 < ds.length := List.length_pos_iff.2 hne
  have hletter : Decimal.Ended (Char.toUInt8 'e' :: ofInt (ds.length + k - 1)) := Decimal.ended_cons (by decide) _
  have hexp := Decimal.exponent_ofInt (ds.length + k - 1)
  have hdigits : ∀ n, (∀ c ∈ ds.take n, IsDigit c) ∧ ∀ c ∈ ds.drop n, IsDigit c := fun n =>
    ⟨fun c hc => hs.digits c (List.mem_of_mem_take hc), fun c hc => hs.digits c (List.mem_of_mem_drop hc)⟩
  have hvalue := Decimal.digitsValue_of_spells hs
  unfold prettified
  dsimp only
  split
  · -- 1234e7 -> 12340000000.0
    obtain ⟨j, rfl⟩ : ∃ j : Nat, k = j := ⟨k.toNat, by omega⟩
    have hj : ((ds.length : Int) + j - ds.length).toNat = j := by omega
    have hwhole := hs.append (spells_zeros j)
    have hall : Spells (ds ++ List.replicate j (Char.toUInt8 '0') ++ [Char.toUInt8 '0']) (N * 10 ^ j * 10) := by
      simpa using hwhole.append hzero
    have hread := Decimal.magnitude_point hwhole.digits hzero.digits (by simp) Decimal.ended_nil rfl
    rw [Decimal.digitsValue_of_spells hall] at hread
    rw [hj]
    refine hread.trans (congrArg some ?_)
    rw [List.length_singleton, Nat.cast_mul, Nat.cast_mul, Nat.cast_pow, zpow_natCast, mul_assoc]
    norm_num
  split
  · -- 1234e-2 -> 12.34
    have hread := Decimal.magnitude_point (hdigits (ds.length + k).toNat).1 (hdigits _).2
      (by rwa [List.take_append_drop]) Decimal.ended_nil rfl
    rw [List.take_append_drop, hvalue, List.append_nil, List.length_drop] at hread
    refine hread.trans (congrArg some ?_)
    congr 2
    omega
  split
  · -- 1234e-6 -> 0.001234
    obtain ⟨z, hz⟩ : ∃ z : Nat, -((ds.length : Int) + k) = z := ⟨(-(ds.length + k)).toNat, by omega⟩
    have hfrac := (spells_zeros z).append hs
    have hall : Spells ([Char.toUInt8 '0'] ++ (List.replicate z (Char.toUInt8 '0') ++ ds)) N := by
      simpa using hzero.append hfrac
    have hread := Decimal.magnitude_point hzero.digits hfrac.digits (by simp) Decimal.ended_nil rfl
    rw [Decimal.digitsValue_of_spells hall, List.append_nil, List.length_append, List.length_replicate] at hread
    rw [hz, Int.toNat_natCast]
    refine hread.trans (congrArg some ?_)
    congr 2
    omega
  split
  · -- 1e30
    rename_i hone
    rw [Decimal.magnitude_whole hs.digits hne hexp, hvalue]
    congr 3
    omega
  · -- 1234e30 -> 1.234e33
    have hread := Decimal.magnitude_point (hdigits 1).1 (hdigits 1).2 (by rwa [List.take_append_drop]) hletter hexp
    rw [List.take_append_drop, hvalue, List.length_drop] at hread
    rw [List.append_assoc]
    refine hread.trans (congrArg some ?_)
    congr 2
    omega

theorem prettified_read (hs : Spells ds N) (hne : ds ≠ []) : Decimal.read (prettified ds k) = some (N * 10 ^ k : ℚ) := by
  obtain ⟨c, s, htext, hc⟩ : ∃ c s, prettified ds k = c :: s ∧ IsDigit c := by
    obtain ⟨c, ds, rfl⟩ := List.exists_cons_of_ne_nil hne
    have hc : IsDigit c := hs.digits c List.mem_cons_self
    unfold prettified
    dsimp only
    split
    · exact ⟨c, _, rfl, hc⟩
    split
    · rename_i hpoint
      obtain ⟨j, hj⟩ : ∃ j, (((c :: ds).length : Int) + k).toNat = j + 1 := Nat.exists_eq_add_one.2 (by omega)
      rw [hj]
      exact ⟨c, _, rfl, hc⟩
    split
    · exact ⟨_, _, rfl, by decide⟩
    split
    · exact ⟨c, _, rfl, hc⟩
    · exact ⟨c, _, rfl, hc⟩
  rw [← prettified_magnitude hs hne, htext, Decimal.read_of_digit hc]

/-! ## The text of a double -/

theorem grisu2_halfway (beyond : Nat → UInt32) {value : UInt64} (hp : p + 18 ≤ SIZE) (hfin : biasedExponent value ≠ 0x7FF)
    (h0 : value.toNat % 2 ^ 63 ≠ 0) : Yields (grisu2 beyond value b p) fun (b', len, K) => ∃ ds N, ds.length = len ∧
      b.Writes p ds b' ∧ Spells ds N ∧
        Binary.Halfway 52 (DiyFp.ofDouble value).f.toNat (DiyFp.ofDouble value).e (N * 10 ^ K) := by
  obtain ⟨q, mi, pl, w, c, K, hex, hpower, hprod, hbounds, hw, hlow⟩ := grisu2_start hfin h0
  obtain ⟨hc, -, -⟩ := getCachedPower_nearest hpower
  unfold grisu2
  simp only [hbounds, hpower, hw, Option.bind_eq_bind, Option.bind_some]
  refine (hprod.digitGen_between beyond K hp).mono ?_
  rintro ⟨b', len, K'⟩ ⟨N, kappa, rfl, -, ⟨⟨ds, hlen, hds, hs⟩, -⟩, hco⟩
  refine ⟨ds, N, hlen, hds, hs, hex.halfway hlow (DiyFp.ofDouble_isDouble hfin h0) ?_ ?_⟩
  · have hmi := (DiyFp.mul_near mi hc).2
    rw [hex.mul_mi_e c, ← mul_assoc] at hmi
    rw [add_comm K]
    exact hmi.trans_le (hco.scale K).lo_le
  · have hpl := (DiyFp.mul_near pl hc).1
    rw [← mul_assoc] at hpl
    rw [add_comm K]
    exact (hco.scale K).le_hi.trans_lt hpl

/-- Whoever reads the text and takes the nearest `double` has `value` again. It is not
rounded to infinity either. -/
def ReadsBack (value : UInt64) (text : List UInt8) : Prop :=
  ∃ d, Decimal.read text = some d ∧ |d| < (2 ^ 54 - 1) * 2 ^ 970 ∧ ∀ other, biasedExponent other ≠ 0x7FF →
    doubleValue other ≠ doubleValue value → |d - doubleValue value| < |d - doubleValue other|

theorem DiyFp.IsDouble.halfway_bounds {x : DiyFp} {d : ℚ} (hx : IsDouble x.f x.e) (hd : Binary.Halfway 52 x.f.toNat x.e d) :
    0 < d ∧ d < (2 ^ 54 - 1) * 2 ^ 970 := by
  have hdouble := Binary.double_zpow x.e
  have hpos : (0 : ℚ) < 2 ^ (x.e - 1) := by positivity
  have hf1 : (1 : ℚ) ≤ x.f.toNat := by exact_mod_cast Nat.pos_of_ne_zero hx.f_ne
  have hf : (x.f.toNat : ℚ) ≤ 2 ^ 53 - 1 := by
    have : (x.f.toNat : ℚ) + 1 ≤ 2 ^ 53 := by exact_mod_cast Nat.succ_le_of_lt hx.f_lt
    linarith
  have hgt := hd.gt
  have hlt := hd.lt
  rw [← hdouble] at hgt hlt
  constructor
  · calc (0 : ℚ) < (2 * 1 - 1) * 2 ^ (x.e - 1) := by linarith
      _ ≤ (2 * x.f.toNat - 1) * 2 ^ (x.e - 1) := mul_le_mul_of_nonneg_right (by linarith) hpos.le
      _ < d := by linarith
  · calc d < (2 * x.f.toNat + 1) * 2 ^ (x.e - 1) := by linarith
      _ ≤ (2 ^ 54 - 1) * 2 ^ (x.e - 1) := mul_le_mul_of_nonneg_right (by linarith) hpos.le
      _ ≤ (2 ^ 54 - 1) * 2 ^ (970 : ℤ) :=
        mul_le_mul_of_nonneg_left (zpow_le_zpow_right₀ (by norm_num) (by have := hx.e_le; omega)) (by norm_num)
      _ = (2 ^ 54 - 1) * 2 ^ 970 := by rw [← zpow_natCast]; rfl

theorem readsBack_of_halfway {value : UInt64} {text : List UInt8} {d : ℚ} (hfin : biasedExponent value ≠ 0x7FF)
    (h0 : value.toNat % 2 ^ 63 ≠ 0) (hd : Binary.Halfway 52 (DiyFp.ofDouble value).f.toNat (DiyFp.ofDouble value).e d)
    (hread : Decimal.read text = some (if value &&& kDpSignMask = 0 then d else -d)) : ReadsBack value text := by
  have hnormal := DiyFp.ofDouble_normal hfin h0
  obtain ⟨hpos, hlt⟩ := (DiyFp.ofDouble_isDouble hfin h0).halfway_bounds hd
  refine ⟨_, hread, ?_, fun other hother hne => ?_⟩
  · split
    · rwa [abs_of_pos hpos]
    · rwa [abs_neg, abs_of_pos hpos]
  have hrep := doubleValue_representable hother
  rw [doubleValue.eq_1 value] at hne ⊢
  split
  · rename_i hsign
    rw [if_pos hsign] at hne
    exact hd.nearest hnormal hrep hne
  · -- The same with both signs changed.
    rename_i hsign
    rw [if_neg hsign] at hne
    have hnear := hd.nearest hnormal hrep.neg fun h => hne (neg_eq_iff_eq_neg.1 h)
    rwa [neg_sub_neg, abs_sub_comm, ← abs_neg (-d - doubleValue other), neg_sub, sub_neg_eq_add, add_comm, ← sub_neg_eq_add]

theorem readsBack_zero {value : UInt64} (hzero : doubleValue value = 0) :
    ReadsBack value [Char.toUInt8 '0', Char.toUInt8 '.', Char.toUInt8 '0'] := by
  have hread : Decimal.read [Char.toUInt8 '0', Char.toUInt8 '.', Char.toUInt8 '0'] = some 0 := by decide +kernel
  refine ⟨0, hread, by norm_num, fun other _ hne => ?_⟩
  rw [hzero] at hne ⊢
  rw [sub_zero, abs_zero, zero_sub, abs_neg]
  exact abs_pos.2 hne

/-- What stands before the digits. -/
def signText (value : UInt64) : List UInt8 := if value &&& kDpSignMask = 0 then [] else [Char.toUInt8 '-']

theorem signText_read {value : UInt64} (hs : Spells ds N) (hne : ds ≠ []) : Decimal.read (signText value ++ prettified ds k) =
    some (if value &&& kDpSignMask = 0 then (N * 10 ^ k : ℚ) else -(N * 10 ^ k)) := by
  unfold signText
  split
  · exact prettified_read hs hne
  · rw [List.singleton_append, Decimal.read_minus, prettified_magnitude hs hne, Option.map_some]

theorem signText_writes (b : FixedBuffer SIZE) (p : Nat) (value : UInt64) :
    Yields (if value &&& kDpSignMask ≠ 0 then do
        pure (← b.store p (Char.toUInt8 '-'), (p : Int) + 1, value ^^^ kDpSignMask)
      else pure (b, (p : Int), value)) fun (b', q, _) => b.Writes p (signText value) b' ∧ q = (p + (signText value).length : ℕ) := by
  unfold signText
  refine yields_ite (fun hneg => ?_) fun hpos => ?_
  · rw [if_neg hneg]
    exact yields_bind ((b.writes_nil p).store _ (by simp)) fun b₁ h₁ => yields_pure ⟨h₁, by simp⟩
  · rw [if_pos (not_not.1 hpos)]
    exact yields_pure ⟨b.writes_nil p, by simp⟩

theorem dtoaMilo_text (beyond : Nat → UInt32) {value : UInt64} (hp : p + 27 ≤ SIZE) (hfin : biasedExponent value ≠ 0x7FF) :
    Yields (dtoaMilo beyond value b p) fun (_, b') => ReadsBack value (b'.cString p) := by
  have hmag : value &&& ~~~kDpSignMask = 0 ↔ value.toNat % 2 ^ 63 = 0 := by
    rw [← and_not_signMask, ← UInt64.toNat_inj, UInt64.toNat_zero]
  unfold dtoaMilo
  refine yields_bind_any fun _ => yields_ite (fun hzero => ?_) fun hne => ?_
  · -- 0.0
    refine yields_bind ((b.writes_nil p).store _ (by simp)) fun b₁ h₁ => ?_
    refine yields_bind (h₁.store _ (by simp)) fun b₂ h₂ => ?_
    refine yields_bind (h₂.store _ (by simp)) fun b₃ h₃ => ?_
    refine yields_bind (h₃.store _ (by simp)) fun b₄ h₄ => yields_pure ?_
    have hnul : ∀ c ∈ [Char.toUInt8 '0', Char.toUInt8 '.', Char.toUInt8 '0'], c ≠ 0 := by
      simp only [List.forall_mem_cons]
      exact ⟨by decide, by decide, by decide, List.forall_mem_nil _⟩
    have htext := Writes.cString (l := [Char.toUInt8 '0', Char.toUInt8 '.', Char.toUInt8 '0']) h₄ hnul (by simp; omega)
    dsimp only
    rw [htext]
    exact readsBack_zero ((doubleValue_eq_zero hfin).2 (hmag.1 hzero))
  have h0 : value.toNat % 2 ^ 63 ≠ 0 := mt hmag.2 hne
  refine yields_bind ((magnitude_ends (by omega) hfin h0).yields.and (signText_writes b p value)) ?_
  rintro ⟨b₁, q, value'⟩ ⟨hsame, hw₁, hq⟩
  have hsign : (signText value).length ≤ 1 := by
    unfold signText
    split <;> simp
  subst hq
  have hgrisu := (grisu2_writes (b := b₁) (p := p + (signText value).length) beyond (by omega) hsame.finite hsame.nonzero).and
    (grisu2_halfway beyond (by omega) hsame.finite hsame.nonzero)
  refine yields_bind hgrisu ?_
  rintro ⟨b₂, len, K⟩ ⟨⟨⟨h1, h18⟩, hK, -⟩, ds, N, rfl, hw, hs, hhalf⟩
  rw [hsame.same] at hhalf
  refine yields_bind (prettify_writes hw h1 hK) fun b₃ hw₃ => yields_pure ?_
  have hall := hw₁.append hw₃
  rw [← List.append_assoc] at hall
  have hds : ds ≠ [] := List.ne_nil_of_length_pos h1
  have hnul : ∀ c ∈ signText value ++ prettified ds K, c ≠ 0 := by
    rw [List.forall_mem_append]
    refine ⟨fun c hc => ?_, prettified_ne_zero hs.ne_zero⟩
    unfold signText at hc
    split at hc
    · cases hc
    · obtain rfl := List.mem_singleton.1 hc
      decide
  have hlen := (prettified_length h1 h18 hK).2.1
  dsimp only
  rw [hall.cString hnul (by rw [List.length_append]; omega)]
  exact readsBack_of_halfway hfin h0 hhalf (signText_read hs hds)

/-- Every finite `double` is written so that it can be read back. -/
theorem dtoaMilo_reads_back (beyond : Nat → UInt32) {value : UInt64} (hp : p + 27 ≤ SIZE)
    (hfin : biasedExponent value ≠ 0x7FF) :
    Ends (dtoaMilo beyond value b p) fun (_, b') => ReadsBack value (b'.cString p) :=
  ((dtoaMilo_ends beyond (by omega) hfin).and (dtoaMilo_text beyond hp hfin)).mono fun _ h => h.2

/-- -1.5 -/
theorem dtoaMilo_reads_back_negative : Ends (dtoaMilo (fun _ => 0) 0xBFF8000000000000 (.new fun _ => 0 : FixedBuffer 27) 0)
    fun (_, b') => ReadsBack 0xBFF8000000000000 (b'.cString 0) :=
  dtoaMilo_reads_back (p := 0) _ (by decide) (by decide)

end Ycnt

import Ycnt.Base.Utils.Text
import Ycnt.Lib.Numeral
/-!
# The five layouts of `Prettify`

`prettified ds k` is the text of the digits `ds` times 10^`k`. `dtoa_milo` returns
one more than the number of digits, which is the length of the text only in the
layout with the point between two digits.
-/

namespace Ycnt

open Total FixedBuffer Numeral

variable {SIZE : Nat} {b b' : FixedBuffer SIZE} {p : Nat} {l g r : List UInt8} {q : Int}

/-! ## The exponent -/

theorem cDigitsLut_get : ∀ K < 100, cDigitsLut[K * 2]? = some (Numeral.digit (K / 10)) ∧
    cDigitsLut[K * 2 + 1]? = some (Numeral.digit (K % 10)) := by
  decide +kernel

theorem ofNat_of_lt {n : Nat} (h : n < 10) : ofNat n = [Numeral.digit n] := by
  rw [ofNat, lowFirst_of_lt h, Nat.mod_eq_of_lt h]
  rfl

theorem ofNat_of_le {n : Nat} (h : 10 ≤ n) : ofNat n = ofNat (n / 10) ++ [Numeral.digit (n % 10)] := by
  rw [ofNat, lowFirst_of_le h, List.reverse_cons]
  rfl

theorem storeLut_writes {K : Int} (h : b.Writes p l b') (hq : q = p + l.length) (hK : 0 ≤ K ∧ K < 100) :
    Yields (storeLut b' q K) (b.Writes p (l ++ [Numeral.digit (K.toNat / 10), Numeral.digit (K.toNat % 10)])) := by
  obtain ⟨hhigh, hlow⟩ := cDigitsLut_get K.toNat (by omega)
  have hK2 : (K * 2).toNat = K.toNat * 2 := by omega
  unfold storeLut
  rw [hK2, hhigh, hlow]
  refine yields_bind (yields_some (P := (· = Numeral.digit (K.toNat / 10))) rfl) ?_
  rintro _ rfl
  refine yields_bind (h.store _ hq) fun b₁ h₁ => ?_
  refine yields_bind (yields_some (P := (· = Numeral.digit (K.toNat % 10))) rfl) ?_
  rintro _ rfl
  refine (h₁.store _ ?_).mono fun b₂ h₂ => ?_
  · rw [List.length_append, List.length_singleton, hq]
    omega
  · simpa using h₂

/-- `WriteExponent` writes a numeral of up to three digits. -/
theorem writeExponent_writes {K : Int} (h : b.Writes p l b') (hq : q = p + l.length) (hK : K.natAbs < 1000) :
    Yields (writeExponent b' K q) (b.Writes p (l ++ ofInt K ++ [0])) := by
  unfold writeExponent
  have hsign : Yields (if K < 0 then do pure (← b'.store q (Char.toUInt8 '-'), q + 1, -K) else pure (b', q, K))
      fun r => b.Writes p (l ++ sign K) r.1 ∧ r.2.1 = p + (l ++ sign K).length ∧ r.2.2 = K.natAbs := by
    apply yields_ite
    · intro hneg
      refine yields_bind (h.store _ hq) fun b₁ h₁ => yields_pure ?_
      rw [sign, if_pos hneg]
      dsimp only
      refine ⟨h₁, ?_, by omega⟩
      rw [List.length_append, List.length_singleton, hq]
      omega
    · intro hneg
      rw [sign, if_neg hneg, List.append_nil]
      refine yields_pure ⟨h, hq, ?_⟩
      dsimp only
      omega
  refine yields_bind hsign ?_
  rintro ⟨b₁, q₁, _⟩ ⟨h₁, hq₁, rfl⟩
  dsimp only at h₁ hq₁
  refine yields_bind (P := fun r : FixedBuffer SIZE × Int => b.Writes p (l ++ ofInt K) r.1 ∧
    r.2 = p + (l ++ ofInt K).length) ?_ ?_
  · rw [ofInt, ← List.append_assoc]
    generalize l ++ sign K = l at h₁ hq₁
    generalize K.natAbs = n at hK ⊢
    refine yields_ite (fun h100 => ?_) fun h100 => yields_ite (fun h10 => ?_) fun h10 => ?_
    · have hof : ofNat n = [Numeral.digit (n / 100), Numeral.digit (n % 100 / 10), Numeral.digit (n % 100 % 10)] := by
        rw [ofNat_of_le (by omega), ofNat_of_le (by omega), ofNat_of_lt (by omega), Nat.div_div_eq_div_mul,
          Nat.mod_mod_of_dvd _ (by decide), show n / 10 % 10 = n % 100 / 10 by omega]
        rfl
      have hdiv : ((n : Int) / 100).toNat = n / 100 := by omega
      have hmod : ((n : Int) % 100).toNat = n % 100 := by omega
      refine yields_bind (h₁.store _ hq₁) fun b₂ h₂ => ?_
      refine yields_bind (storeLut_writes h₂ (by simp [hq₁, Int.add_assoc]) (by omega)) fun b₃ h₃ => yields_pure ?_
      rw [hdiv, hmod, List.append_assoc] at h₃
      rw [hof]
      refine ⟨h₃, ?_⟩
      simp [hq₁, Int.add_assoc]
    · have hof : ofNat n = [Numeral.digit (n / 10), Numeral.digit (n % 10)] := by
        rw [ofNat_of_le (by omega), ofNat_of_lt (by omega)]
        rfl
      refine yields_bind (storeLut_writes h₁ hq₁ (by omega)) fun b₂ h₂ => yields_pure ?_
      rw [Int.toNat_natCast] at h₂
      rw [hof]
      refine ⟨h₂, ?_⟩
      simp [hq₁, Int.add_assoc]
    · refine yields_bind (h₁.store _ hq₁) fun b₂ h₂ => yields_pure ?_
      rw [Int.toNat_natCast] at h₂
      rw [ofNat_of_lt (by omega)]
      refine ⟨h₂, ?_⟩
      simp [hq₁, Int.add_assoc]
  · rintro ⟨b₂, q₂⟩ ⟨h₂, hq₂⟩
    exact h₂.store 0 hq₂

/-! ## The zeros -/

/-- Zeros in the place of `g`. -/
theorem fillZeros_writes {first last : Int} (h : b.Writes p (l ++ (g ++ r)) b') (hf : first = l.length)
    (hl : last = l.length + g.length) :
    Yields (fillZeros b' p first last) (b.Writes p (l ++ (List.replicate g.length (Char.toUInt8 '0') ++ r))) := by
  unfold fillZeros
  refine yields_loop (I := fun s => ∃ j, j ≤ g.length ∧ s.2 = l.length + (j : Int) ∧
    b.Writes p (l ++ (List.replicate j (Char.toUInt8 '0') ++ (g.drop j ++ r))) s.1) ?_ ?_
  · rintro ⟨b₁, i⟩ ⟨j, hj, rfl, h₁⟩
    refine yields_ite (fun hlt => ?_) fun hge => ?_
    · have hjlt : j < g.length := by omega
      rw [List.drop_eq_getElem_cons hjlt, List.cons_append, ← List.append_assoc] at h₁
      refine yields_bind (h₁.set _ ?_) fun b₂ h₂ => yields_pure ⟨j + 1, hjlt, ?_, ?_⟩
      · simp
      · push_cast
        omega
      · rw [List.replicate_succ', List.append_assoc, List.singleton_append, ← List.append_assoc]
        exact h₂
    · obtain rfl : j = g.length := by omega
      rw [List.drop_length, List.nil_append] at h₁
      exact yields_pure h₁
  · exact ⟨0, Nat.zero_le _, by rw [hf]; simp, by simpa using h⟩

/-! ## The layouts -/

/-- The text of the digits `ds` times 10^`k`. -/
def prettified (ds : List UInt8) (k : Int) : List UInt8 :=
  let kk : Int := ds.length + k
  if ds.length ≤ kk ∧ kk ≤ 21 then
    ds ++ List.replicate (kk - ds.length).toNat (Char.toUInt8 '0') ++ [Char.toUInt8 '.', Char.toUInt8 '0']
  else if 0 < kk ∧ kk ≤ 21 then ds.take kk.toNat ++ Char.toUInt8 '.' :: ds.drop kk.toNat
  else if -6 < kk ∧ kk ≤ 0 then
    Char.toUInt8 '0' :: Char.toUInt8 '.' :: List.replicate (-kk).toNat (Char.toUInt8 '0') ++ ds
  else if ds.length = 1 then ds ++ Char.toUInt8 'e' :: ofInt (kk - 1)
  else ds.take 1 ++ Char.toUInt8 '.' :: ds.drop 1 ++ Char.toUInt8 'e' :: ofInt (kk - 1)

/-- A point put between `l` and `r`. -/
theorem point_writes {src dest : Int} {count : Nat} (h : b.Writes p (l ++ r) b') (hs : src = p + l.length) (hd : dest = src + 1)
    (hc : count = r.length) : Yields (b'.memmove dest src count) fun b₁ =>
      Yields (b₁.store src (Char.toUInt8 '.')) (b.Writes p (l ++ Char.toUInt8 '.' :: r)) := by
  refine (h.memmove (i := 1) (by omega) hs hc).mono ?_
  rintro b₁ ⟨g, hg, h₁⟩
  obtain ⟨x, rfl⟩ := List.length_eq_one_iff.1 hg
  exact h₁.set _ hs

theorem prettify_writes {ds : List UInt8} {k : Int} (h : b.Writes p ds b') (h1 : 1 ≤ ds.length)
    (hk : (ds.length + k - 1).natAbs < 1000) :
    Yields (prettify b' p ds.length k) (b.Writes p (prettified ds k ++ [0])) := by
  unfold prettify prettified
  dsimp only
  by_cases hint : (ds.length : Int) ≤ ds.length + k ∧ (ds.length : Int) + k ≤ 21
  · -- 1234e7 -> 12340000000
    rw [if_pos hint, if_pos hint]
    obtain ⟨g, hg, hw⟩ := h.extend k.toNat
    rw [← List.append_nil g] at hw
    have hkk : ((ds.length : Int) + k - ds.length).toNat = g.length := by omega
    refine yields_bind (fillZeros_writes hw rfl (by omega)) fun b₁ h₁ => ?_
    refine yields_bind (h₁.store _ (by simp; omega)) fun b₂ h₂ => ?_
    refine yields_bind (h₂.store _ (by simp; omega)) fun b₃ h₃ => ?_
    refine (h₃.store _ (by simp; omega)).mono fun b₄ h₄ => ?_
    rw [hkk]
    simpa using h₄
  rw [if_neg hint, if_neg hint]
  by_cases hpoint : 0 < (ds.length : Int) + k ∧ (ds.length : Int) + k ≤ 21
  · -- 1234e-2 -> 12.34
    rw [if_pos hpoint, if_pos hpoint]
    rw [← List.take_append_drop (ds.length + k).toNat ds] at h
    have hlen : (ds.take (ds.length + k).toNat).length = (ds.length + k).toNat := by
      rw [List.length_take]
      omega
    refine yields_bind (point_writes h (by omega) (by omega) (by rw [List.length_drop]; omega)) fun b₁ h₁ => ?_
    refine yields_bind h₁ fun b₂ h₂ => ?_
    refine (h₂.store _ ?_).mono fun b₃ h₃ => ?_
    · simp only [List.length_append, List.length_cons, List.length_drop, hlen]
      omega
    · simpa using h₃
  rw [if_neg hpoint, if_neg hpoint]
  by_cases hzero : -6 < (ds.length : Int) + k ∧ (ds.length : Int) + k ≤ 0
  · -- 1234e-6 -> 0.001234
    rw [if_pos hzero, if_pos hzero]
    obtain ⟨z, hz⟩ : ∃ z : Nat, -((ds.length : Int) + k) = z := ⟨(-(ds.length + k)).toNat, by omega⟩
    refine yields_bind (Writes.memmove (l := []) (i := z + 2) h (by simp; omega) (by simp) rfl) ?_
    rintro b₁ ⟨g, hg, h₁⟩
    obtain ⟨x, g, rfl⟩ := List.exists_cons_of_length_eq_add_one hg
    obtain ⟨y, g, rfl⟩ := List.exists_cons_of_length_eq_add_one (Nat.succ.inj hg)
    have hgz : g.length = z := by simpa using hg
    refine yields_bind (Writes.set (l := []) h₁ _ (by simp)) fun b₂ h₂ => ?_
    refine yields_bind (Writes.set (l := [Char.toUInt8 '0']) h₂ _ (by simp)) fun b₃ h₃ => ?_
    refine yields_bind (fillZeros_writes (l := [Char.toUInt8 '0', Char.toUInt8 '.']) h₃ (by simp) (by simp; omega))
      fun b₄ h₄ => ?_
    refine (h₄.store _ (by simp; omega)).mono fun b₅ h₅ => ?_
    rw [hz, Int.toNat_natCast, ← hgz]
    simpa using h₅
  rw [if_neg hzero, if_neg hzero]
  by_cases hone : ds.length = 1
  · -- 1e30
    rw [if_pos hone, if_pos hone]
    refine yields_bind (h.store _ (by omega)) fun b₁ h₁ => ?_
    refine (writeExponent_writes h₁ (by simp; omega) hk).mono fun b₂ h₂ => ?_
    simpa using h₂
  · -- 1234e30 -> 1.234e33
    rw [if_neg hone, if_neg hone]
    rw [← List.take_append_drop 1 ds] at h
    have hlen : (ds.take 1).length = 1 := by
      rw [List.length_take]
      omega
    refine yields_bind (point_writes h (by omega) (by omega) (by rw [List.length_drop])) fun b₁ h₁ => ?_
    refine yields_bind h₁ fun b₂ h₂ => ?_
    refine yields_bind (h₂.store _ ?_) fun b₃ h₃ => ?_
    · simp only [List.length_append, List.length_cons, List.length_drop, hlen]
      omega
    refine (writeExponent_writes h₃ ?_ hk).mono fun b₄ h₄ => ?_
    · simp only [List.length_append, List.length_cons, List.length_drop, List.length_nil, hlen]
      omega
    · simpa using h₄

/-! ## The text of a layout -/

variable {ds : List UInt8} {k : Int}

theorem prettified_ne_zero (h : ∀ c ∈ ds, c ≠ 0) : ∀ c ∈ prettified ds k, c ≠ 0 := by
  have htake : ∀ n, ∀ c ∈ ds.take n, c ≠ 0 := fun n c hc => h c (List.mem_of_mem_take hc)
  have hdrop : ∀ n, ∀ c ∈ ds.drop n, c ≠ 0 := fun n c hc => h c (List.mem_of_mem_drop hc)
  have hzeros : ∀ n : Nat, ∀ c ∈ List.replicate n (Char.toUInt8 '0'), c ≠ 0 := fun n c hc => by
    rw [List.eq_of_mem_replicate hc]
    decide
  have hexp : ∀ K, ∀ c ∈ ofInt K, c ≠ 0 := fun K c hc => ofInt_ne_zero hc
  have hdot : Char.toUInt8 '.' ≠ 0 := by decide
  have he : Char.toUInt8 'e' ≠ 0 := by decide
  have h0 : Char.toUInt8 '0' ≠ 0 := by decide
  unfold prettified
  dsimp only
  split
  · simp only [List.forall_mem_append, List.forall_mem_cons]
    exact ⟨⟨h, hzeros _⟩, hdot, h0, List.forall_mem_nil _⟩
  split
  · simp only [List.forall_mem_append, List.forall_mem_cons]
    exact ⟨htake _, hdot, hdrop _⟩
  split
  · simp only [List.forall_mem_append, List.forall_mem_cons]
    exact ⟨⟨h0, hdot, hzeros _⟩, h⟩
  split
  · simp only [List.forall_mem_append, List.forall_mem_cons]
    exact ⟨h, he, hexp _⟩
  · simp only [List.forall_mem_append, List.forall_mem_cons]
    exact ⟨⟨htake _, hdot, hdrop _⟩, he, hexp _⟩

/-- Every layout adds a byte to the digits, and just one only where the point is
between two of them. -/
theorem prettified_length (h1 : 1 ≤ ds.length) (h18 : ds.length ≤ 18) (hk : (ds.length + k - 1).natAbs < 1000) :
    ds.length + 1 ≤ (prettified ds k).length ∧ (prettified ds k).length ≤ 25 ∧
      ((prettified ds k).length = ds.length + 1 ↔ k < 0 ∧ 0 < ds.length + k) := by
  have hexp : 1 ≤ (ofInt (ds.length + k - 1)).length := List.length_pos_iff.2 (ofInt_ne_nil _)
  have hexp3 : (ofInt (ds.length + k - 1)).length ≤ 3 + 1 := ofInt_length_le (by decide) hk
  unfold prettified
  dsimp only
  split
  · simp only [List.length_append, List.length_replicate, List.length_cons, List.length_nil]
    omega
  split
  · simp only [List.length_append, List.length_cons, List.length_take, List.length_drop]
    omega
  split
  · simp only [List.length_append, List.length_replicate, List.length_cons]
    omega
  split
  · simp only [List.length_append, List.length_cons]
    omega
  · simp only [List.length_append, List.length_cons, List.length_take, List.length_drop]
    omega

-- "12.34", "0.001234" and "1.234e33"
example : prettified ([1, 2, 3, 4].map Numeral.digit) (-2) = [49, 50, 46, 51, 52] ∧
    prettified ([1, 2, 3, 4].map Numeral.digit) (-6) = [48, 46, 48, 48, 49, 50, 51, 52] ∧
    prettified ([1, 2, 3, 4].map Numeral.digit) 30 = [49, 46, 50, 51, 52, 101, 51, 51] := by decide +kernel

end Ycnt

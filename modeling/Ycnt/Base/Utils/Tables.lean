import Ycnt.Base.Utils.Grisu
/-!
# The tables of Grisu2

`DigitGen` reads `kPow10[kappa]` where its first loop returns and `kPow10[-kappa]`
where its second does. The table has ten entries, so the second loop may return
after nine digits at the latest.

`Checked` has `dtoa_milo` once more: its functions fail also at a read outside
`kPow10`, and at a call of `GrisuRound` before any digit. (Outside the other tables
those of `Utils` fail, too.)
-/

namespace Ycnt

open Total FixedBuffer

variable {SIZE : Nat} {b : FixedBuffer SIZE} {buffer : Int}

namespace Checked

/-- `kPow10[i]` -/
def kPow10 (i : Int) : Option UInt32 := if 0 ≤ i ∧ i < 10 then some (Ycnt.kPow10 (fun _ => 0) i.toNat) else none

def grisuRound (b : FixedBuffer SIZE) (buffer : Int) (len : Nat) (delta rest ten_kappa wp_w : UInt64) :
    Option (FixedBuffer SIZE) := do
  guard (1 ≤ len)
  Ycnt.grisuRound b buffer len delta rest ten_kappa wp_w

section

variable (one wp_w : DiyFp) (buffer : Int) (K : Int)

def integralDigit (s : Digits SIZE) :
    Option (Digits SIZE ⊕ ((FixedBuffer SIZE × Nat × Int) ⊕ Digits SIZE)) :=
  if 0 < s.kappa then do
    let (d, p1) ← digit s.kappa s.p1
    let s ← s.emit buffer d
    let kappa := s.kappa - 1
    let tmp := (← shl p1.toUInt64 (-one.e)) + s.p2
    if tmp ≤ s.delta then do
      let ten_kappa ← shl (← kPow10 kappa).toUInt64 (-one.e)
      let b ← grisuRound s.b buffer s.len s.delta tmp ten_kappa wp_w.f
      pure (.inr (.inl (b, s.len, K + kappa)))
    else pure (.inl { s with kappa, p1 })
  else pure (.inr (.inr s))

def fractionDigit (s : Digits SIZE) : Option (Digits SIZE ⊕ (FixedBuffer SIZE × Nat × Int)) := do
  let p2 := s.p2 * 10
  let delta := s.delta * 10
  let d := (← shr p2 (-one.e)).toUInt8
  let s ← s.emit buffer d.toUInt32
  let p2 := p2 &&& (one.f - 1)
  let kappa := s.kappa - 1
  if p2 < delta then do
    let wp_w' := wp_w.f * (← kPow10 (-kappa)).toUInt64
    let b ← grisuRound s.b buffer s.len delta p2 one.f wp_w'
    pure (.inr (b, s.len, K + kappa))
  else pure (.inl { s with kappa, p2, delta })

end

def digitGen (W Mp : DiyFp) (delta : UInt64) (b : FixedBuffer SIZE) (buffer : Int) (K : Int) :
    Option (FixedBuffer SIZE × Nat × Int) := do
  let one : DiyFp := ⟨← shl 1 (-Mp.e), Mp.e⟩
  let wp_w ← Mp.sub W
  let p1 := (← shr Mp.f (-one.e)).toUInt32
  let p2 := Mp.f &&& (one.f - 1)
  let s : Digits SIZE := { b, len := 0, kappa := countDecimalDigit32 p1, p1, p2, delta }
  match ← loop (integralDigit one wp_w buffer K) turns s with
  | .inl r => pure r
  | .inr s => loop (fractionDigit one wp_w buffer K) turns s

def grisu2 (value : UInt64) (b : FixedBuffer SIZE) (buffer : Int) : Option (FixedBuffer SIZE × Nat × Int) := do
  let v := DiyFp.ofDouble value
  let (w_m, w_p) ← v.normalizedBoundaries
  let (c_mk, K) ← getCachedPower w_p.e
  let W := (← v.normalize).mul c_mk
  let Wp := w_p.mul c_mk
  let Wm := w_m.mul c_mk
  let Wm : DiyFp := { Wm with f := Wm.f + 1 }
  let Wp : DiyFp := { Wp with f := Wp.f - 1 }
  digitGen W Wp (Wp.f - Wm.f) b buffer K

def dtoaMilo (value : UInt64) (b : FixedBuffer SIZE) (buffer : Int) : Option (Nat × FixedBuffer SIZE) := do
  guard (biasedExponent value ≠ 0x7FF)
  if value &&& ~~~kDpSignMask = 0 then do
    let b ← b.store buffer (Char.toUInt8 '0')
    let b ← b.store (buffer + 1) (Char.toUInt8 '.')
    let b ← b.store (buffer + 2) (Char.toUInt8 '0')
    let b ← b.store (buffer + 3) 0
    pure (2 + 1, b)
  else do
    let (b, buffer, value) ←
      (if value &&& kDpSignMask ≠ 0 then do
        pure (← b.store buffer (Char.toUInt8 '-'), buffer + 1, value ^^^ kDpSignMask)
      else pure (b, buffer, value))
    let (b, length, K) ← grisu2 value b buffer
    let b ← prettify b buffer length K
    pure (length + 1, b)

end Checked

/-! ## The interval of a `double` -/

/-- From `upper - width` to `upper`, in units of 2^-`shift`. -/
structure Interval where
  upper : Nat
  width : Nat
  shift : Nat

namespace Interval

variable (r : Interval)

/-- An integer lies in the interval, or a number with nine digits behind the point
that is not its lower end. -/
def NineDecimals : Prop :=
  (∃ N, N * 2 ^ r.shift ≤ r.upper ∧ r.upper ≤ N * 2 ^ r.shift + r.width) ∨
    ∃ N, N * 2 ^ r.shift ≤ r.upper * 10 ^ 9 ∧ r.upper * 10 ^ 9 < N * 2 ^ r.shift + r.width * 10 ^ 9

/-- A multiple of `u` is less than `D` below `M`. -/
theorem multiple_below {M D u : Nat} : (∃ N, N * u ≤ M ∧ M < N * u + D) ↔ M % u < D := by
  constructor
  · rintro ⟨N, hle, hlt⟩
    calc M % u = (M - N * u) % u := by rw [Nat.mul_comm, Nat.sub_mul_mod (by rwa [Nat.mul_comm])]
      _ ≤ M - N * u := Nat.mod_le _ _
      _ < D := by omega
  · intro h
    have hM := Nat.div_add_mod' M u
    exact ⟨M / u, by omega, by omega⟩

theorem nineDecimals_iff :
    r.NineDecimals ↔ r.upper % 2 ^ r.shift ≤ r.width ∨ r.upper * 10 ^ 9 % 2 ^ r.shift < r.width * 10 ^ 9 := by
  unfold NineDecimals
  rw [← multiple_below (D := r.width * 10 ^ 9), ← Nat.lt_succ_iff, ← multiple_below]
  refine or_congr_left (exists_congr fun N => and_congr_right fun _ => ?_)
  omega

instance : Decidable r.NineDecimals := decidable_of_iff _ r.nineDecimals_iff.symm

end Interval

/-- What is nearest to the magnitude `f * 2^e` of a `double`, times the cached power:
between the midpoints with the next `double` on either side, `(2 f + 1) 2^(e - 1)` and
`(2 f - 1) 2^(e - 1)`, or `(4 f - 1) 2^(e - 2)` for a power of two. Their products are
rounded, and drawn in by one. -/
def interval (value : UInt64) : Option Interval := do
  let ⟨f, e⟩ := DiyFp.ofDouble value
  let f := f.toNat
  let q := 62 - f.log2
  let (c, _) ← getCachedPower (e - 1 - q)
  let plus := (2 * f + 1) * 2 ^ q
  let minus := if f = 2 ^ 52 then (4 * f - 1) * 2 ^ (q - 1) else (2 * f - 1) * 2 ^ q
  let upper := (plus * c.f.toNat + 2 ^ 63) / 2 ^ 64 - 1
  let lower := (minus * c.f.toNat + 2 ^ 63) / 2 ^ 64 + 1
  pure ⟨upper, upper - lower, (-(e - 1 - q + c.e + 64)).toNat⟩

/-- Nine digits behind the point are enough for a `double`. -/
def NineDecimals (value : UInt64) : Prop := ∃ r ∈ interval value, r.NineDecimals

instance (value : UInt64) : Decidable (NineDecimals value) :=
  inferInstanceAs (Decidable (∃ r ∈ interval value, r.NineDecimals))

/-! ## What is left behind the point -/

/-- What is left of `M` after `j` digits behind the point is below `D`, which has grown as much. -/
def Stops (M D u j : Nat) : Prop := M * 10 ^ j % u < D * 10 ^ j

instance {M D u j : Nat} : Decidable (Stops M D u j) := inferInstanceAs (Decidable (_ < _))

theorem Stops.mono {M D u i j : Nat} (h : Stops M D u i) (hij : i ≤ j) : Stops M D u j := by
  obtain ⟨d, rfl⟩ := Nat.exists_eq_add_of_le hij
  unfold Stops at h ⊢
  calc M * 10 ^ (i + d) % u = M * 10 ^ i % u * 10 ^ d % u := by rw [Nat.mod_mul_mod, pow_add, mul_assoc]
    _ ≤ M * 10 ^ i % u * 10 ^ d := Nat.mod_le _ _
    _ < D * 10 ^ i * 10 ^ d := Nat.mul_lt_mul_of_pos_right h (by positivity)
    _ = D * 10 ^ (i + d) := by rw [pow_add, mul_assoc]

/-- Either loop may be the one that returns. -/
theorem nineDecimals_mk {M D shift : Nat} :
    (⟨M, D, shift⟩ : Interval).NineDecimals ↔ M % 2 ^ shift ≤ D ∨ Stops M D (2 ^ shift) 9 := by
  rw [Interval.nineDecimals_iff]
  rfl

/-- The second loop after `j` digits. -/
structure Behind (M D u j : Nat) (s : Digits SIZE) : Prop where
  kappa : s.kappa = -(j : Int)
  p2 : s.p2.toNat = M * 10 ^ j % u
  delta : s.delta.toNat = D * 10 ^ j

section

variable {beyond : Nat → UInt32} {one wp_w : DiyFp} {K : Int} {n shift M D j : Nat} {b' : FixedBuffer SIZE} {len : Nat}
  {kappa : Int} {p1 : UInt32} {p2 delta : UInt64}

/-- The first loop returns where `p2` is within `delta` at the latest, and leaves both as they are. -/
theorem integralDigit_rest (hone : Places one n shift) (h : Integral b n shift b' len kappa p1 p2 delta) :
    Yields (integralDigit beyond one wp_w buffer K ⟨b', len, kappa, p1, p2, delta⟩)
      (Sum.elim (fun s => s.p2 = p2 ∧ s.delta = delta)
        (Sum.elim (fun _ => p2.toNat ≤ delta.toNat) fun s => s.p2 = p2 ∧ s.delta = delta)) := by
  by_cases hpos : 0 < kappa
  · obtain ⟨j, hj⟩ : ∃ j : Nat, kappa = (j + 1 : Nat) := ⟨(kappa - 1).toNat, by omega⟩
    obtain ⟨d, p1', tmp, ten_kappa, -, -, -, htmp, -, heq⟩ := integralDigit_eq beyond wp_w buffer K hone h hj
    rw [heq]
    refine yields_bind_any fun b₁ => yields_ite (fun hle => ?_) fun _ => ?_
    · have hle' : tmp.toNat ≤ delta.toNat := UInt64.le_iff_toNat_le.1 hle
      refine yields_bind_any fun b₂ => yields_pure ?_
      show p2.toNat ≤ delta.toNat
      omega
    · exact yields_pure ⟨rfl, rfl⟩
  · unfold integralDigit
    rw [if_neg hpos]
    exact yields_pure ⟨rfl, rfl⟩

/-- The second loop returns after the first digit with which it `Stops`. -/
theorem fractionDigit_rest (hone : Places one n shift) (h : Fraction b n shift b' len kappa p2 delta) (hlen : len ≠ 0)
    (hb : Behind M D (2 ^ shift) j ⟨b', len, kappa, p1, p2, delta⟩) :
    Yields (fractionDigit beyond one wp_w buffer K ⟨b', len, kappa, p1, p2, delta⟩)
      (Sum.elim (fun s => Behind M D (2 ^ shift) (j + 1) s ∧ ¬ Stops M D (2 ^ shift) (j + 1))
        fun _ => Stops M D (2 ^ shift) (j + 1)) := by
  obtain ⟨rfl, hp2, hdelta⟩ := hb
  dsimp only at hp2 hdelta
  obtain ⟨d, p2', delta', wp_w', -, hp2', hdelta', heq⟩ :=
    fractionDigit_eq beyond wp_w b' buffer K (-(j : Int)) p1 hone hlen h.p2_lt h.delta_le
  have hp2j : p2'.toNat = M * 10 ^ (j + 1) % 2 ^ shift := by rw [hp2', hp2, Nat.mod_mul_mod, mul_assoc, pow_succ]
  have hdeltaj : delta'.toNat = D * 10 ^ (j + 1) := by rw [hdelta', hdelta, mul_assoc, pow_succ]
  have hstops : p2' < delta' ↔ Stops M D (2 ^ shift) (j + 1) := by
    rw [UInt64.lt_iff_toNat_lt, hp2j, hdeltaj]
    rfl
  rw [heq]
  refine yields_bind_any fun b₁ => yields_ite (fun hlt => ?_) fun hge => ?_
  · exact yields_bind_any fun b₂ => yields_pure (hstops.1 hlt)
  · refine yields_pure ⟨⟨?_, hp2j, hdeltaj⟩, mt hstops.2 hge⟩
    dsimp only
    omega

/-- The second loop, in the states in which it takes its turns. -/
def Turning (b : FixedBuffer SIZE) (n shift M D j : Nat) (s : Digits SIZE) : Prop :=
  Fraction b n shift s.b s.len s.kappa s.p2 s.delta ∧ Behind M D (2 ^ shift) j s

theorem Turning.turn (hb : 0 ≤ buffer ∧ buffer + 18 ≤ SIZE) (hone : Places one n shift) {s : Digits SIZE}
    (h : Turning b n shift M D j s) :
    Yields (fractionDigit beyond one wp_w buffer K s)
      (Sum.elim (fun s => Turning b n shift M D (j + 1) s ∧ ¬ Stops M D (2 ^ shift) (j + 1))
        fun _ => Stops M D (2 ^ shift) (j + 1)) := by
  obtain ⟨b', len, kappa, p1, p2, delta⟩ := s
  obtain ⟨hs, hj⟩ := h
  have hn := hone.n_ge
  have hcount := hs.count
  have hkappa := hs.kappa_nonpos
  dsimp only at hcount hkappa
  refine ((fractionDigit_ends hb hone hs).yields.and
    (fractionDigit_rest hone hs (by dsimp only; omega) hj)).mono ?_
  rintro (s | r) ⟨h, h'⟩
  · exact ⟨⟨h.1, h'.1⟩, h'.2⟩
  · exact h'

/-- What the first loop leaves to the second. -/
theorem integral_loop_rest (beyond : Nat → UInt32) (hb : 0 ≤ buffer ∧ buffer + 18 ≤ SIZE) (hone : Places one n shift)
    (h : Integral b n shift b 0 n p1 p2 delta) (hp2 : p2.toNat = M % 2 ^ shift) :
    Yields (loop (integralDigit beyond one wp_w buffer K) turns ⟨b, 0, n, p1, p2, delta⟩)
      (Sum.elim (fun _ => M % 2 ^ shift ≤ delta.toNat) fun s =>
        Turning b n shift M delta.toNat 0 s ∧ delta.toNat < M % 2 ^ shift) := by
  refine (yields_loop (I := fun s => Integral b n shift s.b s.len s.kappa s.p1 s.p2 s.delta ∧ s.p2 = p2 ∧ s.delta = delta)
    (P := Sum.elim (fun _ => p2.toNat ≤ delta.toNat) fun s =>
      (Integral b n shift s.b s.len s.kappa s.p1 s.p2 s.delta ∧ s.kappa = 0) ∧ s.p2 = p2 ∧ s.delta = delta)
    ?_ ⟨h, rfl, rfl⟩).mono ?_
  · rintro ⟨b', len, kappa, p1', p2', delta'⟩ ⟨hs, rfl, rfl⟩
    refine ((integralDigit_ends hb hone hs).yields.and (integralDigit_rest hone hs)).mono ?_
    rintro (s | r | s) ⟨h, h'⟩
    · exact ⟨h.1, h'⟩
    · exact h'
    · exact ⟨h, h'⟩
  · rintro (r | ⟨b', len, kappa, p1', p2', delta'⟩) hr
    · exact hp2 ▸ hr
    · obtain ⟨⟨hs, rfl⟩, rfl, rfl⟩ := hr
      have hcount := hs.count
      have hlast := hs.last rfl
      have hdelta := hs.delta_ge
      dsimp only at hcount hlast hdelta
      have hlen : len = n := by omega
      refine ⟨⟨⟨hs.keeps, Int.le_refl _, hs.count, hs.p2_lt, hlast.le, ?_⟩, ?_⟩, hp2 ▸ hlast⟩
      · rw [hlen, Nat.sub_self]
        exact hdelta
      · exact ⟨rfl, by rw [pow_zero, mul_one]; exact hp2, by rw [pow_zero, mul_one]⟩

/-- `Stops` is the test of the second loop. -/
theorem stops_iff {s : Digits SIZE} (hone : Places one n shift)
    (h : Fraction b n shift s.b s.len s.kappa s.p2 s.delta) (hb : Behind M D (2 ^ shift) j s) :
    s.p2 * 10 &&& (one.f - 1) < s.delta * 10 ↔ Stops M D (2 ^ shift) (j + 1) := by
  have hten : (10 : UInt64).toNat = 10 := rfl
  have hpow : 2 ^ shift ≤ 2 ^ 60 := Nat.pow_le_pow_right (by omega) hone.shift_le
  have hp2lt := h.p2_lt
  have hle := h.delta_le
  have hp2 : (s.p2 * 10).toNat = s.p2.toNat * 10 := by
    rw [UInt64.toNat_mul, hten]
    omega
  have hdelta : (s.delta * 10).toNat = s.delta.toNat * 10 := by
    rw [UInt64.toNat_mul, hten]
    omega
  rw [UInt64.lt_iff_toNat_lt, and_one_sub hone.f_eq, hp2, hdelta, hb.p2, hb.delta, Nat.mod_mul_mod, mul_assoc, mul_assoc, ← pow_succ]
  rfl

/-! ## The checked turns -/

theorem Digits.emit_inv {s s' : Digits SIZE} {d : UInt32} (h : s.emit buffer d = some s') :
    s'.kappa = s.kappa ∧ (d ≠ 0 ∨ s.len ≠ 0 → 1 ≤ s'.len) := by
  unfold emit at h
  split at h
  · obtain ⟨b₁, -, h⟩ := Option.bind_eq_some_iff.1 h
    cases h
    exact ⟨rfl, fun _ => Nat.le_add_left _ _⟩
  · rename_i hno
    cases h
    exact ⟨rfl, fun hd => absurd hd hno⟩

namespace Checked

theorem kPow10_eq (beyond : Nat → UInt32) {i : Int} (h : 0 ≤ i ∧ i < 10) : kPow10 i = some (Ycnt.kPow10 beyond i.toNat) := by
  have hi : i.toNat ≤ 9 := by omega
  unfold kPow10
  rw [if_pos h]
  exact congrArg some (UInt32.toNat_inj.1 ((kPow10_toNat _ hi).trans (kPow10_toNat _ hi).symm))

theorem kPow10_eq_none {i : Int} (h : ¬ (0 ≤ i ∧ i < 10)) : kPow10 i = none := if_neg h

theorem grisuRound_eq {len : Nat} {delta rest ten_kappa wp_w : UInt64} (h : 1 ≤ len) :
    grisuRound b buffer len delta rest ten_kappa wp_w = Ycnt.grisuRound b buffer len delta rest ten_kappa wp_w := by
  unfold grisuRound guard
  rw [if_pos h]
  rfl

/-- The first loop reads inside the table, and has a digit. -/
theorem integralDigit_eq (beyond : Nat → UInt32) (hn : n ≤ 10) (h : Integral b n shift b' len kappa p1 p2 delta) :
    integralDigit one wp_w buffer K ⟨b', len, kappa, p1, p2, delta⟩ =
      Ycnt.integralDigit beyond one wp_w buffer K ⟨b', len, kappa, p1, p2, delta⟩ := by
  have hcount := h.count
  unfold integralDigit Ycnt.integralDigit
  by_cases hpos : 0 < kappa
  swap
  · rw [if_neg hpos, if_neg hpos]
  rw [if_pos hpos, if_pos hpos]
  obtain ⟨j, hj⟩ : ∃ j : Nat, kappa = (j + 1 : Nat) := ⟨(kappa - 1).toNat, by omega⟩
  refine Option.bind_congr fun r hd => Option.bind_congr fun s hs => Option.bind_congr fun hi _ => ?_
  obtain ⟨hk, hlen⟩ := Digits.emit_inv hs
  dsimp only at hd hk hlen
  rw [hj] at hd
  have hne := h.digit_ne hj ((digit_ends (by omega) p1).yields _ hd).1
  have hkappa : 0 ≤ s.kappa - 1 ∧ s.kappa - 1 < 10 := by omega
  refine if_congr Iff.rfl ?_ rfl
  rw [kPow10_eq beyond hkappa, Option.bind_eq_bind, Option.bind_some]
  refine Option.bind_congr fun ten_kappa _ => ?_
  rw [grisuRound_eq (hlen hne)]

/-- The second loop reads outside the table where it returns after the tenth digit or later. -/
theorem fractionDigit_eq (beyond : Nat → UInt32) (s : Digits SIZE) (hlen : s.len ≠ 0) (hk : s.kappa ≤ 0) :
    fractionDigit one wp_w buffer K s =
      if (s.p2 * 10 &&& (one.f - 1)) < s.delta * 10 ∧ s.kappa ≤ -9 then none
      else Ycnt.fractionDigit beyond one wp_w buffer K s := by
  unfold fractionDigit Ycnt.fractionDigit
  split
  · rename_i hout
    obtain ⟨hlt, hk9⟩ := hout
    refine Option.bind_eq_none_iff.2 fun r _ => Option.bind_eq_none_iff.2 fun s' hs => ?_
    obtain ⟨hk', -⟩ := Digits.emit_inv hs
    dsimp only
    rw [if_pos hlt, kPow10_eq_none (by omega)]
    rfl
  · rename_i hin
    refine Option.bind_congr fun r _ => Option.bind_congr fun s' hs => ?_
    obtain ⟨hk', hlen'⟩ := Digits.emit_inv hs
    dsimp only
    by_cases hlt : s.p2 * 10 &&& (one.f - 1) < s.delta * 10
    · have hk9 : ¬ s.kappa ≤ -9 := fun hle => hin ⟨hlt, hle⟩
      rw [if_pos hlt, if_pos hlt, kPow10_eq beyond (by omega), Option.bind_eq_bind, Option.bind_some]
      rw [grisuRound_eq (hlen' (.inr hlen))]
    · rw [if_neg hlt, if_neg hlt]

/-! ## The checked loops -/

theorem integral_loop_eq (beyond : Nat → UInt32) (hb : 0 ≤ buffer ∧ buffer + 18 ≤ SIZE) (hone : Places one n shift)
    (h : Integral b n shift b' len kappa p1 p2 delta) :
    loop (integralDigit one wp_w buffer K) turns ⟨b', len, kappa, p1, p2, delta⟩ =
      loop (Ycnt.integralDigit beyond one wp_w buffer K) turns ⟨b', len, kappa, p1, p2, delta⟩ := by
  apply loop_congr (I := fun s => Integral b n shift s.b s.len s.kappa s.p1 s.p2 s.delta)
  · intro s hs
    exact integralDigit_eq beyond hone.n_le hs
  · intro s hs
    refine (integralDigit_ends hb hone hs).yields.mono ?_
    rintro (s' | r) hr
    · exact hr.1
    · exact trivial
  · exact h

/-- The check fails where the tenth digit or a later one is the last. -/
theorem fractionDigit_turning (beyond : Nat → UInt32) (hone : Places one n shift) {s : Digits SIZE}
    (h : Turning b n shift M D j s) : fractionDigit one wp_w buffer K s =
      if Stops M D (2 ^ shift) (j + 1) ∧ 9 ≤ j then none else Ycnt.fractionDigit beyond one wp_w buffer K s := by
  obtain ⟨hs, hj⟩ := h
  have hn := hone.n_ge
  have hcount := hs.count
  have hkappa := hj.kappa
  have hstops := stops_iff hone hs hj
  have hnine : s.kappa ≤ -9 ↔ 9 ≤ j := by omega
  rw [fractionDigit_eq beyond s (by omega) hs.kappa_nonpos]
  exact if_congr (and_congr hstops hnine) rfl rfl

theorem fraction_loop_eq (beyond : Nat → UInt32) (hb : 0 ≤ buffer ∧ buffer + 18 ≤ SIZE) (hone : Places one n shift)
    {s : Digits SIZE} (h : Turning b n shift M D 0 s) (h9 : Stops M D (2 ^ shift) 9) :
    loop (fractionDigit one wp_w buffer K) turns s = loop (Ycnt.fractionDigit beyond one wp_w buffer K) turns s := by
  apply loop_congr (I := fun s => ∃ j ≤ 8, Turning b n shift M D j s)
  · rintro s ⟨j, hj, hs⟩
    rw [fractionDigit_turning beyond hone hs, if_neg]
    rintro ⟨-, h9j⟩
    omega
  · rintro s ⟨j, hj, hs⟩
    refine (hs.turn hb hone).mono ?_
    rintro (s' | r) hr
    · refine ⟨j + 1, ?_, hr.1⟩
      by_contra hgt
      exact hr.2 (h9.mono (by omega))
    · exact trivial
  · exact ⟨0, Nat.zero_le _, h⟩

theorem fraction_loop_stops (hb : 0 ≤ buffer ∧ buffer + 18 ≤ SIZE) (hone : Places one n shift)
    {s : Digits SIZE} (h : Turning b n shift M D 0 s) :
    Yields (loop (fractionDigit one wp_w buffer K) turns s) fun _ => Stops M D (2 ^ shift) 9 := by
  refine yields_loop (I := fun s => ∃ j, Turning b n shift M D j s) ?_ ⟨0, h⟩
  rintro s ⟨j, hs⟩
  rw [fractionDigit_turning (fun _ => 0) hone hs]
  refine yields_ite (fun _ => yields_none) fun hin => (hs.turn hb hone).mono ?_
  rintro (s' | r) hr
  · exact ⟨j + 1, hr.1⟩
  · have hj : ¬ 9 ≤ j := fun hle => hin ⟨hr, hle⟩
    exact Stops.mono hr (by omega)

/-! ## `DigitGen` -/

/-- The checked loops, with the same start. The first is that of `DigitGen`. -/
theorem digitGen_loops (beyond : Nat → UInt32) {W Mp : DiyFp} {delta : UInt64} (hb : 0 ≤ buffer ∧ buffer + 18 ≤ SIZE)
    (h : Given W Mp delta shift) :
    ∃ (one wp_w : DiyFp) (n : Nat) (s : Digits SIZE), Places one n shift ∧
      Yields (loop (Ycnt.integralDigit beyond one wp_w buffer K) turns s)
        (Sum.elim (fun _ => Mp.f.toNat % 2 ^ shift ≤ delta.toNat) fun s =>
          Turning b n shift Mp.f.toNat delta.toNat 0 s ∧ delta.toNat < Mp.f.toNat % 2 ^ shift) ∧
      digitGen W Mp delta b buffer K = (loop (Ycnt.integralDigit beyond one wp_w buffer K) turns s >>=
        Sum.elim pure (loop (fractionDigit one wp_w buffer K) turns)) ∧
      Ycnt.digitGen beyond W Mp delta b buffer K = (loop (Ycnt.integralDigit beyond one wp_w buffer K) turns s >>=
        Sum.elim pure (loop (Ycnt.fractionDigit beyond one wp_w buffer K) turns)) := by
  obtain ⟨onef, hi, wp_w, n, hshl, hsub, hshr, hcount, hone, -, hstart⟩ := digitGen_start b h
  have hp2 : (Mp.f &&& (onef - 1)).toNat = Mp.f.toNat % 2 ^ shift := and_one_sub hone.f_eq
  refine ⟨⟨onef, Mp.e⟩, wp_w, n, ⟨b, 0, n, hi.toUInt32, Mp.f &&& (onef - 1), delta⟩, hone, ?_, ?_, ?_⟩
  · exact integral_loop_rest beyond hb hone hstart hp2
  · unfold digitGen
    simp only [hshl, hsub, hshr, hcount, Option.bind_eq_bind, Option.bind_some]
    rw [integral_loop_eq beyond hb hone hstart]
    refine Option.bind_congr fun r _ => ?_
    cases r <;> rfl
  · unfold Ycnt.digitGen
    simp only [hshl, hsub, hshr, hcount, Option.bind_eq_bind, Option.bind_some]
    refine Option.bind_congr fun r _ => ?_
    cases r <;> rfl

/-- With nine decimals in the interval the checks make no difference. -/
theorem digitGen_eq (beyond : Nat → UInt32) {W Mp : DiyFp} {delta : UInt64} (hb : 0 ≤ buffer ∧ buffer + 18 ≤ SIZE)
    (h : Given W Mp delta shift) (h9 : (⟨Mp.f.toNat, delta.toNat, shift⟩ : Interval).NineDecimals) :
    digitGen W Mp delta b buffer K = Ycnt.digitGen beyond W Mp delta b buffer K := by
  obtain ⟨one, wp_w, n, s, hone, hrest, hchecked, heq⟩ := digitGen_loops (b := b) (K := K) beyond hb h
  rw [hchecked, heq]
  refine Option.bind_congr fun r hr => ?_
  cases r with
  | inl r => rw [Sum.elim_inl, Sum.elim_inl]
  | inr s' =>
    obtain ⟨hs, hlt⟩ := hrest _ hr
    rw [Sum.elim_inr, Sum.elim_inr]
    rcases nineDecimals_mk.1 h9 with hle | h9
    · exact absurd hle (Nat.not_le_of_lt hlt)
    · exact fraction_loop_eq beyond hb hone hs h9

/-- The checks are passed only with nine decimals in the interval. -/
theorem digitGen_nine {W Mp : DiyFp} {delta : UInt64} (hb : 0 ≤ buffer ∧ buffer + 18 ≤ SIZE)
    (h : Given W Mp delta shift) :
    Yields (digitGen W Mp delta b buffer K) fun _ => (⟨Mp.f.toNat, delta.toNat, shift⟩ : Interval).NineDecimals := by
  obtain ⟨one, wp_w, n, s, hone, hrest, hchecked, -⟩ :=
    digitGen_loops (b := b) (K := K) (fun _ => 0) hb h
  rw [hchecked]
  refine yields_bind hrest ?_
  rintro (r | s') hr
  · exact yields_pure (nineDecimals_mk.2 (.inl hr))
  · refine (fraction_loop_stops hb hone hr.1).mono fun _ h9 => ?_
    exact nineDecimals_mk.2 (.inr h9)

end Checked

end

/-! ## The whole conversion -/

section

variable {value : UInt64}

/-- The interval is what `Grisu2` computes. -/
theorem interval_eq {mi pl w c : DiyFp} {q : Nat} {K : Int} (h : DiyFp.Exact (DiyFp.ofDouble value) q mi pl w)
    (hmi : mi.f.toNat + 2 ^ DiyFp.minusBits (DiyFp.ofDouble value).f.toNat q = w.f.toNat)
    (hpower : getCachedPower pl.e = some (c, K)) : interval value = some ⟨(pl.mul c).f.toNat - 1,
      (pl.mul c).f.toNat - 1 - ((mi.mul c).f.toNat + 1), (-(pl.mul c).e).toNat⟩ := by
  have hbits := h.bits
  have hq : 62 - (DiyFp.ofDouble value).f.toNat.log2 = q := by omega
  have hminus : (if (DiyFp.ofDouble value).f.toNat = 2 ^ 52 then (4 * (DiyFp.ofDouble value).f.toNat - 1) * 2 ^ (q - 1)
      else (2 * (DiyFp.ofDouble value).f.toNat - 1) * 2 ^ q) = mi.f.toNat := by
    rw [h.w_f] at hmi
    unfold DiyFp.minusBits at hmi
    split
    · rename_i hf
      have hlog : (DiyFp.ofDouble value).f.toNat.log2 = 52 := by rw [hf]; exact Nat.log2_two_pow
      obtain rfl : q = 10 := by omega
      rw [if_pos hf] at hmi
      omega
    · rename_i hf
      rw [if_neg hf] at hmi
      rw [Nat.sub_mul, one_mul]
      omega
  have he : (pl.mul c).e = pl.e + c.e + 64 := rfl
  unfold interval
  simp only [hq, ← h.pl_e, hpower, hminus, ← h.pl_f, ← DiyFp.mul_f, ← he, Option.bind_eq_bind, Option.bind_some]
  rfl

theorem nineDecimals_congr {value value' : UInt64} (h : DiyFp.ofDouble value = DiyFp.ofDouble value') :
    NineDecimals value ↔ NineDecimals value' := by
  unfold NineDecimals interval
  rw [h]

namespace Checked

/-- `Grisu2`, checked and not, is `DigitGen` on the interval. -/
theorem grisu2_digitGen (beyond : Nat → UInt32) (b : FixedBuffer SIZE) (buffer : Int) (hfin : biasedExponent value ≠ 0x7FF)
    (h0 : value.toNat % 2 ^ 63 ≠ 0) :
    ∃ W Mp delta K shift, Given W Mp delta shift ∧ interval value = some ⟨Mp.f.toNat, delta.toNat, shift⟩ ∧
      grisu2 value b buffer = digitGen W Mp delta b buffer K ∧
      Ycnt.grisu2 beyond value b buffer = Ycnt.digitGen beyond W Mp delta b buffer K := by
  obtain ⟨q, mi, pl, w, c, K, hex, hpower, hprod, hbounds, hw, hmi⟩ := grisu2_start hfin h0
  obtain ⟨shift, hgiven⟩ := hprod.given
  refine ⟨_, _, _, K, shift, hgiven, ?_, ?_, ?_⟩
  · have hshift : (-(pl.mul c).e).toNat = shift := by
      have he : (pl.mul c).e = -shift := hgiven.e_eq
      omega
    rw [interval_eq hex hmi hpower, hprod.delta_f, hprod.plus_f, hprod.minus_f, hshift]
  · unfold grisu2
    simp only [hbounds, hpower, hw, Option.bind_eq_bind, Option.bind_some]
  · unfold Ycnt.grisu2
    simp only [hbounds, hpower, hw, Option.bind_eq_bind, Option.bind_some]

theorem grisu2_eq (beyond : Nat → UInt32) (hb : 0 ≤ buffer ∧ buffer + 18 ≤ SIZE) (hfin : biasedExponent value ≠ 0x7FF)
    (h0 : value.toNat % 2 ^ 63 ≠ 0) (h9 : NineDecimals value) :
    grisu2 value b buffer = Ycnt.grisu2 beyond value b buffer := by
  obtain ⟨W, Mp, delta, K, shift, hgiven, hinterval, hchecked, heq⟩ := grisu2_digitGen beyond b buffer hfin h0
  obtain ⟨r, hr, h9⟩ := h9
  obtain rfl := Option.some.inj (hinterval.symm.trans hr)
  rw [hchecked, heq]
  exact digitGen_eq beyond hb hgiven h9

theorem grisu2_nine (hb : 0 ≤ buffer ∧ buffer + 18 ≤ SIZE) (hfin : biasedExponent value ≠ 0x7FF)
    (h0 : value.toNat % 2 ^ 63 ≠ 0) : Yields (grisu2 value b buffer) fun _ => NineDecimals value := by
  obtain ⟨W, Mp, delta, K, shift, hgiven, hinterval, hchecked, -⟩ := grisu2_digitGen (fun _ => 0) b buffer hfin h0
  rw [hchecked]
  exact (digitGen_nine hb hgiven).mono fun _ h9 => ⟨_, hinterval, h9⟩

/-- With nine decimals in the interval `dtoa_milo` passes the checks. -/
theorem dtoaMilo_eq (beyond : Nat → UInt32) (hb : 0 ≤ buffer ∧ buffer + 27 ≤ SIZE) (hfin : biasedExponent value ≠ 0x7FF)
    (h0 : value.toNat % 2 ^ 63 ≠ 0) (h9 : NineDecimals value) :
    dtoaMilo value b buffer = Ycnt.dtoaMilo beyond value b buffer := by
  unfold dtoaMilo Ycnt.dtoaMilo
  refine Option.bind_congr fun _ _ => if_congr Iff.rfl rfl (Option.bind_congr fun r hr => ?_)
  have hmag := (magnitude_ends (by omega) hfin h0).yields r hr
  obtain ⟨b₁, p, value'⟩ := r
  have hlow : buffer ≤ p := hmag.buffer_ge
  have hhigh : p ≤ buffer + 1 := hmag.buffer_le
  have hgrisu : grisu2 value' b₁ p = Ycnt.grisu2 beyond value' b₁ p :=
    grisu2_eq beyond (by omega) hmag.finite hmag.nonzero ((nineDecimals_congr hmag.same).2 h9)
  dsimp only
  rw [hgrisu]

theorem dtoaMilo_nine (hb : 0 ≤ buffer ∧ buffer + 27 ≤ SIZE) (hfin : biasedExponent value ≠ 0x7FF)
    (h0 : value.toNat % 2 ^ 63 ≠ 0) : Yields (dtoaMilo value b buffer) fun _ => NineDecimals value := by
  unfold dtoaMilo
  refine yields_bind_any fun _ => yields_ite (fun hzero => ?_) fun _ =>
    yields_bind (magnitude_ends (by omega) hfin h0).yields ?_
  · rw [← and_not_signMask, hzero] at h0
    exact absurd rfl h0
  · rintro ⟨b₁, p, value'⟩ hmag
    have hlow : buffer ≤ p := hmag.buffer_ge
    have hhigh : p ≤ buffer + 1 := hmag.buffer_le
    refine yields_bind (grisu2_nine (by omega) hmag.finite hmag.nonzero) fun _ h9 => ?_
    exact yields_bind_any fun b₂ => yields_pure ((nineDecimals_congr hmag.same).1 h9)

/-- `dtoa_milo` reads inside its tables for exactly those values for which a number with
nine digits behind the point is near enough. -/
theorem dtoaMilo_isSome_iff (hb : 0 ≤ buffer ∧ buffer + 27 ≤ SIZE) (hfin : biasedExponent value ≠ 0x7FF)
    (h0 : value.toNat % 2 ^ 63 ≠ 0) : (dtoaMilo value b buffer).isSome ↔ NineDecimals value := by
  constructor
  · intro h
    obtain ⟨r, hr⟩ := Option.isSome_iff_exists.1 h
    exact dtoaMilo_nine hb hfin h0 r hr
  · intro h9
    obtain ⟨r, hr, -⟩ := dtoaMilo_ends (b := b) (fun _ => 0) hb hfin
    rw [dtoaMilo_eq (fun _ => 0) hb hfin h0 h9, hr]
    rfl

/-- 12.5 -/
theorem dtoaMilo_isSome_point : (dtoaMilo 0x4029000000000000 (.new fun _ => 0 : FixedBuffer 32) 0).isSome :=
  (dtoaMilo_isSome_iff (by decide) (by decide) (by decide)).2 (by decide +kernel)

/-- 0.30000000000000004 needs 17 digits. -/
theorem dtoaMilo_outside : ¬ ∀ (value : UInt64) (b : FixedBuffer 32), biasedExponent value ≠ 0x7FF →
    value.toNat % 2 ^ 63 ≠ 0 → (dtoaMilo value b 0).isSome := by
  intro h
  have hsome := h 0x3FD3333333333334 (.new fun _ => 0) (by decide) (by decide)
  have hnone : (dtoaMilo 0x3FD3333333333334 (.new fun _ => 0 : FixedBuffer 32) 0).isSome = false := by decide +kernel
  rw [hnone] at hsome
  cases hsome

end Checked

end

end Ycnt

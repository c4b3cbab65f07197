import Ycnt.Base.Utils.Text
import Ycnt.Lib.Numeral
/-!
# The text of an integer

`convert` writes the decimal numeral of its value. The loop writes it backwards,
the lowest digit first; the remainders of a negative value are negative and find
their digits in the left half of the table.

`convertIn` is `convert` with each operation checked to stay within its type.
-/

namespace Ycnt

open Total FixedBuffer Numeral

variable {SIZE : Nat} {b : FixedBuffer SIZE} {buf : Nat} {value : Int}

/-! ## Integer types -/

structure IntType where
  signed : Bool
  bits : Nat

namespace IntType

def Fits (T : IntType) (x : Int) : Prop :=
  if T.signed then -2 ^ (T.bits - 1) ≤ x ∧ x < 2 ^ (T.bits - 1) else 0 ≤ x ∧ x < 2 ^ T.bits

instance (T : IntType) (x : Int) : Decidable (T.Fits x) := by
  unfold Fits
  infer_instance

/-- The result of an operation of `T`, if it is a value of `T`. -/
def check (T : IntType) (x : Int) : Option Int := if T.Fits x then some x else none

def int : IntType := ⟨true, 32⟩

/-- A value no farther from zero, on the same side. -/
theorem Fits.of_natAbs_le {T : IntType} {x y : Int} (hx : T.Fits x) (hle : y.natAbs ≤ x.natAbs)
    (hneg : y < 0 → x < 0) (hpos : 0 < y → 0 < x) : T.Fits y := by
  unfold Fits at *
  split
  · rename_i hs
    rw [if_pos hs] at hx
    omega
  · rename_i hs
    rw [if_neg hs] at hx
    omega

theorem Fits.natAbs_le {T : IntType} {x : Int} (h : T.Fits x) : x.natAbs ≤ 2 ^ T.bits := by
  have hpow : (2 : Int) ^ (T.bits - 1) ≤ 2 ^ T.bits := pow_le_pow_right₀ (by decide) (Nat.sub_le _ _)
  have hcast : ((2 ^ T.bits : Nat) : Int) = 2 ^ T.bits := by push_cast; rfl
  unfold Fits at h
  split at h <;> omega

theorem check_of_fits {T : IntType} {x : Int} (h : T.Fits x) : T.check x = some x := if_pos h

end IntType

/-- The `do`-`while` loop of `convert<T>`, where no operation may leave its type. -/
def convertDigitIn (T : IntType) (s : FixedBuffer SIZE × Int × Int) :
    Option (FixedBuffer SIZE × Int × Int ⊕ FixedBuffer SIZE × Int) := do
  let (b, p, i) := s
  let lsd ← IntType.int.check (← T.check (i.tmod 10))
  let i ← T.check (i.tdiv 10)
  let b ← b.store p (← zero lsd)
  pure (if i ≠ 0 then .inl (b, p + 1, i) else .inr (b, p + 1))

/-- `convert<T>`, where no operation may leave its type. -/
def convertIn (T : IntType) (b : FixedBuffer SIZE) (buf : Int) (value : Int) : Option (Nat × FixedBuffer SIZE) := do
  let (b, p) ← loop (convertDigitIn T) turns (b, buf, ← T.check value)
  let (b, p) ← (if value < 0 then do pure (← b.store p (Char.toUInt8 '-'), p + 1) else pure (b, p))
  let b ← b.store p 0
  let b ← b.reverse buf p
  pure ((p - buf).toNat, b)

/-- The remainder has the sign of the dividend. -/
theorem tmod_sign (i : Int) : (0 ≤ i → 0 ≤ i.tmod 10) ∧ (i ≤ 0 → i.tmod 10 ≤ 0) := by
  have h := Int.tmod_eq_emod (a := i) (b := 10)
  split at h <;> omega

theorem tmod_fits {T : IntType} {i : Int} (h : T.Fits i) : T.Fits (i.tmod 10) := by
  have habs : (i.tmod 10).natAbs = i.natAbs % 10 := Int.natAbs_tmod i 10
  have hsign := tmod_sign i
  exact h.of_natAbs_le (by omega) (by omega) (by omega)

theorem tdiv_fits {T : IntType} {i : Int} (h : T.Fits i) : T.Fits (i.tdiv 10) := by
  have habs : (i.tdiv 10).natAbs = i.natAbs / 10 := Int.natAbs_tdiv i 10
  have hsign := tmod_sign i
  have hdiv := Int.mul_tdiv_add_tmod i 10
  have hlt := tmod_ten i
  exact h.of_natAbs_le (by omega) (by omega) (by omega)

theorem convertDigitIn_eq {T : IntType} {b' : FixedBuffer SIZE} {p i : Int} (h : T.Fits i) :
    convertDigitIn T (b', p, i) = convertDigit (b', p, i) := by
  have hint : IntType.int.Fits (i.tmod 10) := by
    have := tmod_ten i
    simp only [IntType.Fits, IntType.int, if_true]
    omega
  simp only [convertDigitIn, convertDigit, IntType.check_of_fits (tmod_fits h), IntType.check_of_fits (tdiv_fits h),
    IntType.check_of_fits hint, Option.bind_eq_bind, Option.bind_some]

/-- No operation of `convert<T>` leaves its type. -/
theorem convertIn_eq {T : IntType} (b : FixedBuffer SIZE) (buf : Int) (h : T.Fits value) :
    convertIn T b buf value = convert b buf value := by
  have hloop : loop (convertDigitIn T) turns (b, buf, value) = loop convertDigit turns (b, buf, value) := by
    apply loop_congr (I := fun s => T.Fits s.2.2)
    · intro s hs
      exact convertDigitIn_eq hs
    · intro s hs
      -- What is left of the value is its quotient.
      refine yields_bind_any fun c => yields_bind_any fun b' => yields_pure ?_
      split
      · exact tdiv_fits hs
      · trivial
    · exact h
  simp only [convertIn, convert, IntType.check_of_fits h, Option.bind_eq_bind, Option.bind_some, hloop]

/-! ## The numeral -/

/-- `zero[lsd]` is the digit of `lsd` without its sign. -/
theorem zero_digit {lsd : Int} (h : -9 ≤ lsd ∧ lsd ≤ 9) : zero lsd = some (Numeral.digit lsd.natAbs) := by
  obtain ⟨hlow, hhigh⟩ := h
  interval_cases lsd <;> rfl

/-- The loop of `convert` at `p`, where `i` is left: the digits before `p` and those of `i` are those of `value`. -/
def Numbering (b : FixedBuffer SIZE) (buf : Nat) (value : Int) (s : FixedBuffer SIZE × Int × Int) : Prop :=
  ∃ l, b.Writes buf l s.1 ∧ s.2.1 = buf + l.length ∧ l ++ lowFirst s.2.2.natAbs = lowFirst value.natAbs

theorem convertDigit_yields {s : FixedBuffer SIZE × Int × Int} (h : Numbering b buf value s) :
    Yields (convertDigit s) (Sum.elim (Numbering b buf value) fun (b', p) =>
      b.Writes buf (lowFirst value.natAbs) b' ∧ p = buf + (lowFirst value.natAbs).length) := by
  obtain ⟨b', p, i⟩ := s
  obtain ⟨l, hw, hp, hl⟩ := h
  have hzero : Yields (zero (i.tmod 10)) (· = Numeral.digit (i.tmod 10).natAbs) := by
    rw [zero_digit (tmod_ten i)]
    exact yields_some rfl
  unfold convertDigit
  refine yields_bind hzero ?_
  rintro c rfl
  refine yields_bind (hw.store _ hp) fun b'' hw' => yields_pure ?_
  have hmod : (i.tmod 10).natAbs = i.natAbs % 10 := Int.natAbs_tmod i 10
  have hdiv : (i.tdiv 10).natAbs = i.natAbs / 10 := Int.natAbs_tdiv i 10
  rw [hmod] at hw'
  dsimp only at hp hl
  by_cases hi : i.tdiv 10 = 0
  · rw [if_neg (not_not_intro hi)]
    rw [lowFirst_of_lt (by omega)] at hl
    rw [hl] at hw'
    refine ⟨hw', ?_⟩
    rw [← hl, List.length_append, List.length_singleton, hp]
    omega
  · rw [if_pos hi]
    rw [lowFirst_of_le (by omega), ← hdiv] at hl
    refine ⟨_, hw', ?_, by rw [List.append_assoc]; exact hl⟩
    dsimp only
    rw [List.length_append, List.length_singleton, hp]
    omega

/-- What `convert` writes: the numeral of its value and a NUL. -/
theorem convert_yields (b : FixedBuffer SIZE) (buf : Nat) (value : Int) :
    Yields (convert b buf value) fun (len, b') => len = (ofInt value).length ∧ b.Writes buf (ofInt value ++ [0]) b' := by
  unfold convert
  have hinit : Numbering b buf value (b, buf, value) := ⟨[], b.writes_nil buf, rfl, rfl⟩
  refine yields_bind (yields_loop (fun s hs => convertDigit_yields hs) hinit) ?_
  rintro ⟨b₁, p⟩ ⟨hw₁, hp⟩
  have hsign : Yields (if value < 0 then do pure (← b₁.store p (Char.toUInt8 '-'), p + 1) else pure (b₁, p))
      fun (b', p) => b.Writes buf (lowFirst value.natAbs ++ sign value) b' ∧
        p = buf + (lowFirst value.natAbs ++ sign value).length := by
    apply yields_ite
    · intro hneg
      refine yields_bind (hw₁.store _ hp) fun b₂ hw₂ => yields_pure ?_
      rw [sign, if_pos hneg]
      refine ⟨hw₂, ?_⟩
      rw [List.length_append, List.length_singleton, hp]
      omega
    · intro hneg
      rw [sign, if_neg hneg, List.append_nil]
      exact yields_pure ⟨hw₁, hp⟩
  refine yields_bind hsign ?_
  rintro ⟨b₂, q⟩ ⟨hw₂, hq⟩
  refine yields_bind (hw₂.store 0 hq) fun b₃ hw₃ => ?_
  refine yields_bind (hw₃.reverse hq) fun b₄ hw₄ => yields_pure ?_
  have hrev : (lowFirst value.natAbs ++ sign value).reverse = ofInt value := by
    rw [List.reverse_append, ofInt, ofNat]
    congr 1
    unfold sign
    split <;> rfl
  have hlen : (lowFirst value.natAbs ++ sign value).length = (ofInt value).length := by
    rw [← hrev, List.length_reverse]
  rw [hrev] at hw₄
  exact ⟨by omega, hw₄⟩

theorem convert_writes (hroom : buf + 22 ≤ SIZE) (hv : value.natAbs < 10 ^ 20) :
    Ends (convert b buf value) fun (len, b') =>
      len = (ofInt value).length ∧ b.Writes buf (ofInt value ++ [0]) b' ∧ b'.cString buf = ofInt value := by
  have hlen := ofInt_length_le (by decide) hv
  refine ((convert_ends (b := b) (by omega) hv).and (convert_yields b buf value)).mono ?_
  rintro ⟨len, b'⟩ ⟨-, hlen', hw⟩
  exact ⟨hlen', hw, hw.cString (fun c hc => ofInt_ne_zero hc) (by omega)⟩

/-- A value of at most 64 bits has at most 20 digits. -/
theorem IntType.Fits.lt_pow {T : IntType} (hbits : T.bits ≤ 64) (h : T.Fits value) : value.natAbs < 10 ^ 20 :=
  calc value.natAbs ≤ 2 ^ T.bits := h.natAbs_le
    _ ≤ 2 ^ 64 := Nat.pow_le_pow_right (by decide) hbits
    _ < 10 ^ 20 := by decide

/-- On every value of its type `convert` succeeds within that type, and leaves at
`buf` the canonical numeral of the value, which reads back as the value. -/
theorem convert_exact (T : IntType) (hbits : T.bits ≤ 64) (value : Int) (hv : T.Fits value) (b : FixedBuffer SIZE)
    (buf : Nat) (hroom : buf + 22 ≤ SIZE) :
    ∃ b' : FixedBuffer SIZE, convert b buf value = some ((b'.cString buf).length, b') ∧
      convertIn T b buf value = convert b buf value ∧
      b.Writes buf (b'.cString buf ++ [0]) b' ∧
      (∃ ds, Canonical ds ∧ b'.cString buf = (if value < 0 then [Char.toUInt8 '-'] else []) ++ ds) ∧
      parse (b'.cString buf) = some value ∧
      ∀ value' r, T.Fits value' → convert b buf value' = some r → r.2.cString buf = b'.cString buf → value' = value := by
  obtain ⟨⟨_, b'⟩, hb', rfl, hw, hc⟩ := convert_writes (b := b) hroom (hv.lt_pow hbits)
  refine ⟨b', ?_⟩
  rw [hc]
  refine ⟨hb', convertIn_eq b buf hv, hw, ⟨ofNat value.natAbs, ofNat_canonical _, rfl⟩, parse_ofInt value, ?_⟩
  intro value' r hv' hr heq
  obtain ⟨r', hr', -, -, hc'⟩ := convert_writes (b := b) hroom (hv'.lt_pow hbits)
  obtain rfl := Option.some.inj (hr'.symm.trans hr)
  exact ofInt_injective (hc'.symm.trans heq)

/-- The least value of `long long`. -/
theorem convert_exact_min : ∃ b' : FixedBuffer 32, convert (.new fun _ => 0) 0 (-2 ^ 63) = some ((b'.cString 0).length, b') ∧
    parse (b'.cString 0) = some (-2 ^ 63) := by
  obtain ⟨b', hb', -, -, -, hparse, -⟩ :=
    convert_exact ⟨true, 64⟩ (by decide) (-2 ^ 63) (by decide) (.new fun _ => 0 : FixedBuffer 32) 0 (by decide)
  exact ⟨b', hb', hparse⟩

end Ycnt

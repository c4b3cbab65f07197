import Ycnt.Lib.Lts
import Ycnt.Base.Utils.Grisu
/-!
# The log stream

`LogStream` (`LogStream.h`, `LogStream.cpp`): a buffer of `kSmallBufferSize`
bytes and an `operator<<` for each type that is logged. `long` and `long long`
have 64 bits.
-/

namespace Ycnt

open Total

/-! ## Finite floating-point values, by the bits of their IEEE 754 formats -/

structure FiniteDouble where
  u64 : UInt64
  finite : biasedExponent u64 ≠ 0x7FF

structure FiniteFloat where
  u32 : UInt32
  finite : u32.toNat / 2 ^ 23 % 2 ^ 8 ≠ 0xFF

theorem biasedExponent_ofNat {sign e significand : Nat} (he : e < 2 ^ 11) (hm : significand < 2 ^ 52) :
    biasedExponent (UInt64.ofNat (sign * 2 ^ 63 + e * 2 ^ 52 + significand)) = e := by
  rw [biasedExponent_eq, UInt64.toNat_ofNat']
  omega

def FiniteDouble.ofFields (sign e significand : Nat) (he : e < 0x7FF) (hm : significand < 2 ^ 52) :
    FiniteDouble where
  u64 := UInt64.ofNat (sign * 2 ^ 63 + e * 2 ^ 52 + significand)
  finite := by
    rw [biasedExponent_ofNat (by omega) hm]
    omega

/-- The fraction of a denormal `float` after its leading one, as wide as in a `double`. -/
theorem denormal_lt {m : Nat} (h0 : m ≠ 0) (h : m < 2 ^ 23) : (m - 2 ^ m.log2) * 2 ^ (52 - m.log2) < 2 ^ 52 := by
  have hlog := (Nat.log2_lt h0).2 h
  have hlow : 2 ^ m.log2 ≤ m := Nat.log2_self_le h0
  have hhigh : m < 2 ^ (m.log2 + 1) := Nat.lt_log2_self
  rw [pow_succ] at hhigh
  calc (m - 2 ^ m.log2) * 2 ^ (52 - m.log2) < 2 ^ m.log2 * 2 ^ (52 - m.log2) :=
        (Nat.mul_lt_mul_right (by positivity)).2 (by omega)
    _ = 2 ^ 52 := by rw [← pow_add]; congr 1; omega

/-- `static_cast<double>(v)` -/
def FiniteFloat.toDouble (v : FiniteFloat) : FiniteDouble :=
  let sign := v.u32.toNat / 2 ^ 31
  let e := v.u32.toNat / 2 ^ 23 % 2 ^ 8
  let m := v.u32.toNat % 2 ^ 23
  have hm : m < 2 ^ 23 := Nat.mod_lt _ (by decide)
  if e ≠ 0 then .ofFields sign (e + 896) (m * 2 ^ 29) (by omega) (by omega)
  else if h0 : m = 0 then .ofFields sign 0 0 (by decide) (by decide)
  else .ofFields sign (m.log2 + 874) ((m - 2 ^ m.log2) * 2 ^ (52 - m.log2))
    (by have := (Nat.log2_lt h0).2 hm; omega) (denormal_lt h0 hm)

/-! ## The stream -/

namespace LogStream

/-- `LogStream::Buffer` -/
abbrev Buffer := FixedBuffer kSmallBufferSize

def kMaxNumericSize : Nat := 32

/-- `append` of a string. -/
def appendBytes (b : Buffer) (bytes : List UInt8) : Buffer := (b.append (fun i => bytes.getD i 0) bytes.length).2

/-- `formatNumeric(v)`; `convert` is that of the type of `v`, for this `v`. -/
def formatNumeric (b : Buffer) (convert : Buffer → Int → Option (Nat × Buffer)) : Option Buffer :=
  if b.avail ≥ kMaxNumericSize then do
    let (len, b) ← convert b b.cur
    b.add len
  else pure b

/-- `formatNumeric` of an integer type. -/
def formatInt (b : Buffer) (v : Int) : Option Buffer := formatNumeric b fun b current => convert b current v

/-- `formatNumeric` of a `double`. -/
def formatDouble (b : Buffer) (v : FiniteDouble) (beyond : Nat → UInt32) : Option Buffer :=
  formatNumeric b fun b current => dtoaMilo beyond v.u64 b current

/-- A string of C, up to its NUL, or a null pointer. -/
def appendCString (b : Buffer) : Option (List UInt8) → Buffer
  | some v => appendBytes b v
  | none => appendBytes b (['(', 'n', 'u', 'l', 'l', ')'].map Char.toUInt8)

/-- A call on a stream: an `operator<<`, by the type of its argument, or one of
the other two. `beyond` is what stands behind the table `kPow10`. -/
inductive Call where
  | bool (v : Bool)
  | char (v : UInt8)
  | unsignedChar (v : UInt8)
  | short (v : Int16)
  | unsignedShort (v : UInt16)
  | int (v : Int32)
  | unsignedInt (v : UInt32)
  | long (v : Int64)
  | unsignedLong (v : UInt64)
  | longLong (v : Int64)
  | unsignedLongLong (v : UInt64)
  | float (v : FiniteFloat) (beyond : Nat → UInt32)
  | double (v : FiniteDouble) (beyond : Nat → UInt32)
  | charPtr (v : Option (List UInt8))
  | unsignedCharPtr (v : Option (List UInt8))
  | string (v : List UInt8)
  | stringView (v : List UInt8)
  | buffer (v : Buffer)
  | append (data : Nat → UInt8) (len : Nat)
  | resetBuffer

def call (b : Buffer) : Call → Option Buffer
  | .bool v => some (appendBytes b [Char.toUInt8 (if v then '1' else '0')])
  | .char v => some (appendBytes b [v])
  | .unsignedChar v => formatInt b v.toNat
  | .short v => formatInt b v.toInt
  | .unsignedShort v => formatInt b v.toNat
  | .int v => formatInt b v.toInt
  | .unsignedInt v => formatInt b v.toNat
  | .long v => formatInt b v.toInt
  | .unsignedLong v => formatInt b v.toNat
  | .longLong v => formatInt b v.toInt
  | .unsignedLongLong v => formatInt b v.toNat
  | .float v beyond => formatDouble b v.toDouble beyond
  | .double v beyond => formatDouble b v beyond
  | .charPtr v => some (appendCString b v)
  | .unsignedCharPtr v => some (appendCString b v)
  | .string v => some (appendBytes b v)
  | .stringView v => some (appendBytes b v)
  | .buffer v => some (b.append v.data v.length).2
  | .append data len => some (b.append data len).2
  | .resetBuffer => some b.reset

end LogStream

/-- A stream, from its constructor on. -/
def LogStream : Lts.System LogStream.Buffer LogStream.Call where
  init b := ∃ data, b = .new data
  step := LogStream.call

namespace LogStream

/-- `b'` has the bytes of `b` wherever `data_` does not reach. -/
def Inside (b b' : Buffer) : Prop := ∀ i, kSmallBufferSize ≤ i → b'.data i = b.data i

theorem formatNumeric_ends {b : Buffer} {convert : Buffer → Int → Option (Nat × Buffer)}
    (h : (b.cur : Int) + kMaxNumericSize ≤ kSmallBufferSize →
      Ends (convert b b.cur) fun (len, b') => len ≤ kMaxNumericSize ∧ b.Keeps b') :
    Ends (formatNumeric b convert) (Inside b) := by
  unfold formatNumeric
  apply ends_ite
  · intro havail
    have hroom : b.cur + kMaxNumericSize ≤ kSmallBufferSize := by
      have := b.length_add_avail
      unfold FixedBuffer.length at this
      omega
    refine ends_bind (h (by omega)) ?_
    rintro ⟨len, b'⟩ ⟨hlen, hk⟩
    have hcur : b'.cur = b.cur := hk.cur
    refine (b'.add_ends (by omega)).mono fun b'' hdata i hi => ?_
    rw [hdata]
    exact hk.outside i hi
  · intro _
    exact ends_pure fun _ _ => rfl

theorem formatInt_ends (b : Buffer) {v : Int} (hv : v.natAbs < 10 ^ 20) : Ends (formatInt b v) (Inside b) := by
  apply formatNumeric_ends
  intro hroom
  have hsize : kMaxNumericSize = 32 := rfl
  refine (convert_ends (by omega) hv).mono ?_
  rintro r ⟨hlen, hk⟩
  exact ⟨by omega, hk⟩

theorem formatDouble_ends (b : Buffer) (v : FiniteDouble) (beyond : Nat → UInt32) :
    Ends (formatDouble b v beyond) (Inside b) := by
  apply formatNumeric_ends
  intro hroom
  have hsize : kMaxNumericSize = 32 := rfl
  refine (dtoaMilo_ends beyond (by omega) v.finite).mono ?_
  rintro r ⟨hlen, hk⟩
  exact ⟨by omega, hk⟩

theorem appendBytes_inside (b : Buffer) (bytes : List UInt8) : Inside b (appendBytes b bytes) :=
  fun _ hi => b.append_outside _ _ hi

/-- No call fails. -/
theorem call_ends (b : Buffer) (c : Call) : Ends (call b c) (Inside b) := by
  cases c with
  | bool | char | string | stringView => exact ends_some (appendBytes_inside b _)
  | charPtr v | unsignedCharPtr v => cases v <;> exact ends_some (appendBytes_inside b _)
  | buffer | append => exact ends_some fun _ hi => b.append_outside _ _ hi
  | resetBuffer => exact ends_some fun _ _ => rfl
  | unsignedChar v =>
    have := v.toNat_lt
    exact formatInt_ends b (by omega)
  | short v =>
    have h1 := v.toInt_lt
    have h2 := v.le_toInt
    exact formatInt_ends b (by omega)
  | unsignedShort v =>
    have := v.toNat_lt
    exact formatInt_ends b (by omega)
  | int v =>
    have h1 := v.toInt_lt
    have h2 := v.le_toInt
    exact formatInt_ends b (by omega)
  | unsignedInt v =>
    have := v.toNat_lt
    exact formatInt_ends b (by omega)
  | long v | longLong v =>
    have h1 := v.toInt_lt
    have h2 := v.le_toInt
    exact formatInt_ends b (by omega)
  | unsignedLong v | unsignedLongLong v =>
    have := v.toNat_lt
    exact formatInt_ends b (by omega)
  | float v beyond => exact formatDouble_ends b v.toDouble beyond
  | double v beyond => exact formatDouble_ends b v beyond

theorem run_ends (b : Buffer) (calls : List Call) : Ends (LogStream.run b calls) (Inside b) := by
  induction calls generalizing b with
  | nil => exact ends_some fun _ _ => rfl
  | cons c calls ih =>
    obtain ⟨b₁, h1, hin₁⟩ := call_ends b c
    obtain ⟨b', hb', hin⟩ := ih b₁
    exact ⟨b', Lts.System.run_step h1 hb', fun i hi => (hin i hi).trans (hin₁ i hi)⟩

/-- Every sequence of calls stays inside the buffer: no call fails, and no byte
behind `data_` is changed. -/
theorem stays_inside (data : Nat → UInt8) (calls : List Call) :
    ∃ b, LogStream.run (.new data) calls = some b ∧ b.length ≤ kSmallBufferSize ∧
      b.length + b.avail = kSmallBufferSize ∧ ∀ i, kSmallBufferSize ≤ i → b.data i = data i := by
  obtain ⟨b, hb, hinside⟩ := run_ends (.new data) calls
  exact ⟨b, hb, b.cur_le, b.length_add_avail, hinside⟩

-- "-42 1.5"
example : (LogStream.run (.new fun _ => 0) [.int (-42), .char 32, .float ⟨0x3FC00000, by decide⟩ fun _ => 0]).map
    (·.contents) = some [45, 52, 50, 32, 49, 46, 53] := by decide +kernel

end LogStream

end Ycnt

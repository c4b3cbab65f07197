import Mathlib.Algebra.Group.Nat.Defs
import Mathlib.Algebra.Group.Int.Defs
import Mathlib.Data.Int.Bitwise
import Ycnt.Base.Buffer
/-!
# Text of numbers

`convert` (`Utils.h`) and Grisu2, `dtoa_milo` (`Utils.cpp`). They write at a
pointer `buf` or `buffer` into the `data_` of a `FixedBuffer`.

A failure (`none`) is a store, or a load of what was stored, outside `data_`; an
index outside a table; a failed `assert`; a shift by an amount, or a
`__builtin_clzll` of an argument, for which the result is undefined; and a loop
of 2^64 turns. `uint64_t` and `uint32_t` wrap; the values of type `int` stay small.
-/

namespace Ycnt

open Total

variable {SIZE : Nat}

/-- The fuel of every loop. -/
def turns : Nat := 2 ^ 64

/-! ## Integers -/

def digits : List Char :=
  ['9', '8', '7', '6', '5', '4', '3', '2', '1', '0', '1', '2', '3', '4', '5', '6', '7', '8', '9']

/-- `zero[lsd]`, with `zero = digits + 9`. -/
def zero (lsd : Int) : Option UInt8 := if 0 ≤ 9 + lsd then digits[(9 + lsd).toNat]?.map Char.toUInt8 else none

/-- The `do`-`while` loop of `convert`. It returns `p`. -/
def convertDigit (s : FixedBuffer SIZE × Int × Int) : Option (FixedBuffer SIZE × Int × Int ⊕ FixedBuffer SIZE × Int) := do
  let (b, p, i) := s
  let lsd := i.tmod 10
  let i := i.tdiv 10
  let b ← b.store p (← zero lsd)
  pure (if i ≠ 0 then .inl (b, p + 1, i) else .inr (b, p + 1))

/-- `convert<T>`, for every integer type `T`. -/
def convert (b : FixedBuffer SIZE) (buf : Int) (value : Int) : Option (Nat × FixedBuffer SIZE) := do
  let (b, p) ← loop convertDigit turns (b, buf, value)
  let (b, p) ← (if value < 0 then do pure (← b.store p (Char.toUInt8 '-'), p + 1) else pure (b, p))
  let b ← b.store p 0
  let b ← b.reverse buf p
  pure ((p - buf).toNat, b)

/-! ## Floating point -/

def kDiySignificandSize : Nat := 64

def kDpSignificandSize : Nat := 52

def kDpExponentBias : Int := 0x3FF + kDpSignificandSize

def kDpMinExponent : Int := -kDpExponentBias

def kDpExponentMask : UInt64 := 0x7FF0000000000000

def kDpSignificandMask : UInt64 := 0x000FFFFFFFFFFFFF

def kDpHiddenBit : UInt64 := 0x0010000000000000

/-- `a << s` -/
def shl (a : UInt64) (s : Int) : Option UInt64 := if 0 ≤ s ∧ s < 64 then some (a <<< s.toNat.toUInt64) else none

/-- `a >> s` -/
def shr (a : UInt64) (s : Int) : Option UInt64 := if 0 ≤ s ∧ s < 64 then some (a >>> s.toNat.toUInt64) else none

/-- `__builtin_clzll` -/
def clzll (f : UInt64) : Option Nat := if f ≠ 0 then some (63 - f.toNat.log2) else none

/-- The biased exponent of a `double`, given by its bits. -/
def biasedExponent (u64 : UInt64) : Nat := ((u64 &&& kDpExponentMask) >>> 52).toNat

structure DiyFp where
  f : UInt64
  e : Int

namespace DiyFp

/-- The constructor from a `double`. -/
def ofDouble (u64 : UInt64) : DiyFp :=
  let biased_e := biasedExponent u64
  let significand := u64 &&& kDpSignificandMask
  if biased_e ≠ 0 then ⟨significand + kDpHiddenBit, biased_e - kDpExponentBias⟩
  else ⟨significand, kDpMinExponent + 1⟩

def sub (x rhs : DiyFp) : Option DiyFp := do
  guard (x.e = rhs.e)
  guard (x.f ≥ rhs.f)
  pure ⟨x.f - rhs.f, x.e⟩

def mul (x rhs : DiyFp) : DiyFp :=
  let p := x.f.toNat * rhs.f.toNat
  let h := (p >>> 64).toUInt64
  let l := p.toUInt64
  let h := if l &&& ((1 : UInt64) <<< 63) ≠ 0 then h + 1 else h
  ⟨h, x.e + rhs.e + 64⟩

def normalize (x : DiyFp) : Option DiyFp := do
  let s ← clzll x.f
  pure ⟨← shl x.f s, x.e - s⟩

def normalizeBoundary (x : DiyFp) : Option DiyFp := do
  let res ← loop (fun res : DiyFp =>
    some (if res.f &&& (kDpHiddenBit <<< 1) = 0 then .inl ⟨res.f <<< 1, res.e - 1⟩ else .inr res)) turns x
  let s : Int := kDiySignificandSize - kDpSignificandSize - 2
  pure ⟨← shl res.f s, res.e - s⟩

/-- `NormalizedBoundaries(&minus, &plus)` -/
def normalizedBoundaries (x : DiyFp) : Option (DiyFp × DiyFp) := do
  let pl ← normalizeBoundary ⟨(x.f <<< 1) + 1, x.e - 1⟩
  let mi : DiyFp := if x.f = kDpHiddenBit then ⟨(x.f <<< 2) - 1, x.e - 2⟩ else ⟨(x.f <<< 1) - 1, x.e - 1⟩
  pure (⟨← shl mi.f (mi.e - pl.e), pl.e⟩, pl)

end DiyFp

/-- 10^-348, 10^-340, ..., 10^340 -/
def kCachedPowers_F : List UInt64 :=
  [ 0xfa8fd5a0081c0288, 0xbaaee17fa23ebf76, 0x8b16fb203055ac76, 0xcf42894a5dce35ea, 0x9a6bb0aa55653b2d,
    0xe61acf033d1a45df, 0xab70fe17c79ac6ca, 0xff77b1fcbebcdc4f, 0xbe5691ef416bd60c, 0x8dd01fad907ffc3c,
    0xd3515c2831559a83, 0x9d71ac8fada6c9b5, 0xea9c227723ee8bcb, 0xaecc49914078536d, 0x823c12795db6ce57,
    0xc21094364dfb5637, 0x9096ea6f3848984f, 0xd77485cb25823ac7, 0xa086cfcd97bf97f4, 0xef340a98172aace5,
    0xb23867fb2a35b28e, 0x84c8d4dfd2c63f3b, 0xc5dd44271ad3cdba, 0x936b9fcebb25c996, 0xdbac6c247d62a584,
    0xa3ab66580d5fdaf6, 0xf3e2f893dec3f126, 0xb5b5ada8aaff80b8, 0x87625f056c7c4a8b, 0xc9bcff6034c13053,
    0x964e858c91ba2655, 0xdff9772470297ebd, 0xa6dfbd9fb8e5b88f, 0xf8a95fcf88747d94, 0xb94470938fa89bcf,
    0x8a08f0f8bf0f156b, 0xcdb02555653131b6, 0x993fe2c6d07b7fac, 0xe45c10c42a2b3b06, 0xaa242499697392d3,
    0xfd87b5f28300ca0e, 0xbce5086492111aeb, 0x8cbccc096f5088cc, 0xd1b71758e219652c, 0x9c40000000000000,
    0xe8d4a51000000000, 0xad78ebc5ac620000, 0x813f3978f8940984, 0xc097ce7bc90715b3, 0x8f7e32ce7bea5c70,
    0xd5d238a4abe98068, 0x9f4f2726179a2245, 0xed63a231d4c4fb27, 0xb0de65388cc8ada8, 0x83c7088e1aab65db,
    0xc45d1df942711d9a, 0x924d692ca61be758, 0xda01ee641a708dea, 0xa26da3999aef774a, 0xf209787bb47d6b85,
    0xb454e4a179dd1877, 0x865b86925b9bc5c2, 0xc83553c5c8965d3d, 0x952ab45cfa97a0b3, 0xde469fbd99a05fe3,
    0xa59bc234db398c25, 0xf6c69a72a3989f5c, 0xb7dcbf5354e9bece, 0x88fcf317f22241e2, 0xcc20ce9bd35c78a5,
    0x98165af37b2153df, 0xe2a0b5dc971f303a, 0xa8d9d1535ce3b396, 0xfb9b7cd9a4a7443c, 0xbb764c4ca7a44410,
    0x8bab8eefb6409c1a, 0xd01fef10a657842c, 0x9b10a4e5e9913129, 0xe7109bfba19c0c9d, 0xac2820d9623bf429,
    0x80444b5e7aa7cf85, 0xbf21e44003acdd2d, 0x8e679c2f5e44ff8f, 0xd433179d9c8cb841, 0x9e19db92b4e31ba9,
    0xeb96bf6ebadf77d9, 0xaf87023b9bf0ee6b ]

def kCachedPowers_E : List Int :=
  [ -1220, -1193, -1166, -1140, -1113, -1087, -1060, -1034, -1007, -980, -954, -927, -901, -874, -847, -821, -794, -768, -741, -715,
    -688, -661, -635, -608, -582, -555, -529, -502, -475, -449, -422, -396, -369, -343, -316, -289, -263, -236, -210, -183,
    -157, -130, -103, -77, -50, -24, 3, 30, 56, 83, 109, 136, 162, 189, 216, 242, 269, 295, 322, 348,
    375, 402, 428, 455, 481, 508, 534, 561, 588, 614, 641, 667, 694, 720, 747, 774, 800, 827, 853, 880,
    907, 933, 960, 986, 1013, 1039, 1066 ]

/-- The approximation of a power of ten that brings the exponent `e` into the
range of `DigitGen`, and the decimal exponent `K`. `dk` is exact. -/
def getCachedPower (e : Int) : Option (DiyFp × Int) := do
  -- In units of 10^-17: the factor is 0.30102999566398114.
  let dk := (-61 - e) * 30102999566398114 + 347 * 10 ^ 17
  let k := dk.tdiv (10 ^ 17)
  let k := if k * 10 ^ 17 ≠ dk then k + 1 else k
  let index : Nat := (((k >>> 3) + 1) % 2 ^ 32).toNat
  pure (⟨← kCachedPowers_F[index]?, ← kCachedPowers_E[index]?⟩, -(-348 + index * 8))

/-- `GrisuRound`, which takes the last digit `buffer[len - 1]` down. The state of its loop is `rest`. -/
def grisuRound (b : FixedBuffer SIZE) (buffer : Int) (len : Nat) (delta rest ten_kappa wp_w : UInt64) :
    Option (FixedBuffer SIZE) :=
  loop (fun (b, rest) =>
    if rest < wp_w ∧ delta - rest ≥ ten_kappa ∧
        (rest + ten_kappa < wp_w ∨ wp_w - rest > rest + ten_kappa - wp_w) then do
      let b ← b.store (buffer + (len - 1)) ((← b.load (buffer + (len - 1))) - 1)
      pure (.inl (b, rest + ten_kappa))
    else pure (.inr b)) turns (b, rest)

def countDecimalDigit32 (n : UInt32) : Nat :=
  if n < 10 then 1
  else if n < 100 then 2
  else if n < 1000 then 3
  else if n < 10000 then 4
  else if n < 100000 then 5
  else if n < 1000000 then 6
  else if n < 10000000 then 7
  else if n < 100000000 then 8
  else if n < 1000000000 then 9
  else 10

/-- `kPow10[i]`; a read past the table gives whatever stands there. -/
def kPow10 (beyond : Nat → UInt32) (i : Nat) : UInt32 :=
  ([1, 10, 100, 1000, 10000, 100000, 1000000, 10000000, 100000000, 1000000000] : List UInt32)[i]?.getD (beyond i)

/-- The `switch` of `DigitGen`: the digit `d` and the new `p1`. -/
def digit (kappa : Int) (p1 : UInt32) : Option (UInt32 × UInt32) :=
  match kappa with
  | 10 => some (p1 / 1000000000, p1 % 1000000000)
  | 9 => some (p1 / 100000000, p1 % 100000000)
  | 8 => some (p1 / 10000000, p1 % 10000000)
  | 7 => some (p1 / 1000000, p1 % 1000000)
  | 6 => some (p1 / 100000, p1 % 100000)
  | 5 => some (p1 / 10000, p1 % 10000)
  | 4 => some (p1 / 1000, p1 % 1000)
  | 3 => some (p1 / 100, p1 % 100)
  | 2 => some (p1 / 10, p1 % 10)
  | 1 => some (p1, 0)
  | _ => none

/-- The local variables of `DigitGen` that its loops change. -/
structure Digits (SIZE : Nat) where
  b : FixedBuffer SIZE
  len : Nat
  kappa : Int
  p1 : UInt32
  p2 : UInt64
  delta : UInt64

/-- `if (d || *len) buffer[(*len)++] = '0' + d` -/
def Digits.emit (s : Digits SIZE) (buffer : Int) (d : UInt32) : Option (Digits SIZE) :=
  if d ≠ 0 ∨ s.len ≠ 0 then do
    pure { s with b := ← s.b.store (buffer + s.len) (Char.toUInt8 '0' + d.toUInt8), len := s.len + 1 }
  else pure s

section

variable (beyond : Nat → UInt32) (one wp_w : DiyFp) (buffer : Int) (K : Int)

/-- A turn of the loop over the digits of `p1`. It returns the buffer, `len` and
`K`, or leaves the loop with `kappa` zero. -/
def integralDigit (s : Digits SIZE) :
    Option (Digits SIZE ⊕ ((FixedBuffer SIZE × Nat × Int) ⊕ Digits SIZE)) :=
  if 0 < s.kappa then do
    let (d, p1) ← digit s.kappa s.p1
    let s ← s.emit buffer d
    let kappa := s.kappa - 1
    let tmp := (← shl p1.toUInt64 (-one.e)) + s.p2
    if tmp ≤ s.delta then do
      let ten_kappa ← shl (kPow10 beyond kappa.toNat).toUInt64 (-one.e)
      let b ← grisuRound s.b buffer s.len s.delta tmp ten_kappa wp_w.f
      pure (.inr (.inl (b, s.len, K + kappa)))
    else pure (.inl { s with kappa, p1 })
  else pure (.inr (.inr s))

/-- A turn of the loop over the digits after the point. -/
def fractionDigit (s : Digits SIZE) : Option (Digits SIZE ⊕ (FixedBuffer SIZE × Nat × Int)) := do
  let p2 := s.p2 * 10
  let delta := s.delta * 10
  let d := (← shr p2 (-one.e)).toUInt8
  let s ← s.emit buffer d.toUInt32
  let p2 := p2 &&& (one.f - 1)
  let kappa := s.kappa - 1
  if p2 < delta then do
    let wp_w' := wp_w.f * (kPow10 beyond (-kappa).toNat).toUInt64
    let b ← grisuRound s.b buffer s.len delta p2 one.f wp_w'
    pure (.inr (b, s.len, K + kappa))
  else pure (.inl { s with kappa, p2, delta })

end

def digitGen (beyond : Nat → UInt32) (W Mp : DiyFp) (delta : UInt64) (b : FixedBuffer SIZE) (buffer : Int) (K : Int) :
    Option (FixedBuffer SIZE × Nat × Int) := do
  let one : DiyFp := ⟨← shl 1 (-Mp.e), Mp.e⟩
  let wp_w ← Mp.sub W
  let p1 := (← shr Mp.f (-one.e)).toUInt32
  let p2 := Mp.f &&& (one.f - 1)
  let s : Digits SIZE := { b, len := 0, kappa := countDecimalDigit32 p1, p1, p2, delta }
  match ← loop (integralDigit beyond one wp_w buffer K) turns s with
  | .inl r => pure r
  | .inr s => loop (fractionDigit beyond one wp_w buffer K) turns s

/-- `Grisu2`: the digits, their number `length` and the decimal exponent `K`. -/
def grisu2 (beyond : Nat → UInt32) (value : UInt64) (b : FixedBuffer SIZE) (buffer : Int) :
    Option (FixedBuffer SIZE × Nat × Int) := do
  let v := DiyFp.ofDouble value
  let (w_m, w_p) ← v.normalizedBoundaries
  let (c_mk, K) ← getCachedPower w_p.e
  let W := (← v.normalize).mul c_mk
  let Wp := w_p.mul c_mk
  let Wm := w_m.mul c_mk
  let Wm : DiyFp := { Wm with f := Wm.f + 1 }
  let Wp : DiyFp := { Wp with f := Wp.f - 1 }
  digitGen beyond W Wp (Wp.f - Wm.f) b buffer K

/-- The table "00", "01", ..., "99". -/
def cDigitsLut : List UInt8 :=
  (List.range 100).flatMap fun i => [Char.toUInt8 '0' + (i / 10).toUInt8, Char.toUInt8 '0' + (i % 10).toUInt8]

/-- Stores the two digits of `K`. -/
def storeLut (b : FixedBuffer SIZE) (buffer : Int) (K : Int) : Option (FixedBuffer SIZE) := do
  let b ← b.store buffer (← cDigitsLut[(K * 2).toNat]?)
  b.store (buffer + 1) (← cDigitsLut[(K * 2).toNat + 1]?)

def writeExponent (b : FixedBuffer SIZE) (K : Int) (buffer : Int) : Option (FixedBuffer SIZE) := do
  let (b, buffer, K) ←
    (if K < 0 then do pure (← b.store buffer (Char.toUInt8 '-'), buffer + 1, -K) else pure (b, buffer, K))
  let (b, buffer) ←
    (if 100 ≤ K then do
      let b ← b.store buffer (Char.toUInt8 '0' + (K / 100).toNat.toUInt8)
      pure (← storeLut b (buffer + 1) (K % 100), buffer + 3)
    else if 10 ≤ K then do pure (← storeLut b buffer K, buffer + 2)
    else do pure (← b.store buffer (Char.toUInt8 '0' + K.toNat.toUInt8), buffer + 1))
  b.store buffer 0

/-- `for (int i = first; i < last; i++) buffer[i] = '0'` -/
def fillZeros (b : FixedBuffer SIZE) (buffer first last : Int) : Option (FixedBuffer SIZE) :=
  loop (fun (b, i) =>
    if i < last then do pure (.inl (← b.store (buffer + i) (Char.toUInt8 '0'), i + 1)) else pure (.inr b)) turns (b, first)

def prettify (b : FixedBuffer SIZE) (buffer : Int) (length : Nat) (k : Int) : Option (FixedBuffer SIZE) :=
  let kk : Int := length + k
  if length ≤ kk ∧ kk ≤ 21 then do
    -- 1234e7 -> 12340000000
    let b ← fillZeros b buffer length kk
    let b ← b.store (buffer + kk) (Char.toUInt8 '.')
    let b ← b.store (buffer + (kk + 1)) (Char.toUInt8 '0')
    b.store (buffer + (kk + 2)) 0
  else if 0 < kk ∧ kk ≤ 21 then do
    -- 1234e-2 -> 12.34
    let b ← b.memmove (buffer + (kk + 1)) (buffer + kk) (length - kk).toNat
    let b ← b.store (buffer + kk) (Char.toUInt8 '.')
    b.store (buffer + (length + 1)) 0
  else if -6 < kk ∧ kk ≤ 0 then do
    -- 1234e-6 -> 0.001234
    let offset := 2 - kk
    let b ← b.memmove (buffer + offset) buffer length
    let b ← b.store buffer (Char.toUInt8 '0')
    let b ← b.store (buffer + 1) (Char.toUInt8 '.')
    let b ← fillZeros b buffer 2 offset
    b.store (buffer + (length + offset)) 0
  else if length = 1 then do
    -- 1e30
    let b ← b.store (buffer + 1) (Char.toUInt8 'e')
    writeExponent b (kk - 1) (buffer + 2)
  else do
    -- 1234e30 -> 1.234e33
    let b ← b.memmove (buffer + 2) (buffer + 1) (length - 1)
    let b ← b.store (buffer + 1) (Char.toUInt8 '.')
    let b ← b.store (buffer + (length + 1)) (Char.toUInt8 'e')
    writeExponent b (kk - 1) (buffer + (length + 2))

/-- The sign bit of a `double`. -/
def kDpSignMask : UInt64 := 0x8000000000000000

/-- `dtoa_milo(value, buffer)`, for a `double` given by its bits. -/
def dtoaMilo (beyond : Nat → UInt32) (value : UInt64) (b : FixedBuffer SIZE) (buffer : Int) :
    Option (Nat × FixedBuffer SIZE) := do
  -- Neither NaN nor infinite.
  guard (biasedExponent value ≠ 0x7FF)
  if value &&& ~~~kDpSignMask = 0 then do
    let b ← b.store buffer (Char.toUInt8 '0')
    let b ← b.store (buffer + 1) (Char.toUInt8 '.')
    let b ← b.store (buffer + 2) (Char.toUInt8 '0')
    let b ← b.store (buffer + 3) 0
    pure (2 + 1, b)
  else do
    let (b, buffer, value) ←
      (if value &&& kDpSignMask ≠ 0 then do
        pure (← b.store buffer (Char.toUInt8 '-'), buffer + 1, value ^^^ kDpSignMask)
      else pure (b, buffer, value))
    let (b, length, K) ← grisu2 beyond value b buffer
    let b ← prettify b buffer length K
    pure (length + 1, b)

end Ycnt

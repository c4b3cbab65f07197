import Mathlib.Algebra.Order.Field.Rat
import Mathlib.Algebra.Order.Field.Power
import Ycnt.Lib.Numeral
/-!
# Decimals with a point and an exponent

`read` is the value of a text such as "-1.25e-7": a `-`, digits, a point and more
digits, an `e` and an integer, of which all but some of the digits may be missing.
-/

namespace Decimal

open Numeral

/-- What the digits `ds` spell. -/
def digitsValue (ds : List UInt8) : Nat := Nat.ofDigits 10 (ds.reverse.map fun c => c.toNat - 48)

theorem digitsValue_of_spells {ds : List UInt8} {n : Nat} (h : Spells ds n) : digitsValue ds = n := h.value

/-- The digits behind a point, and the rest. -/
def fraction : List UInt8 → List UInt8 × List UInt8
  | [] => ([], [])
  | c :: s => if c = Char.toUInt8 '.' then s.span fun c => IsDigit c else ([], c :: s)

def exponent : List UInt8 → Option Int
  | [] => some 0
  | c :: s => if c = Char.toUInt8 'e' then parse s else none

def magnitude (s : List UInt8) : Option ℚ := do
  let (whole, s) := s.span fun c => IsDigit c
  let (frac, s) := fraction s
  guard (whole ++ frac ≠ [])
  let e ← exponent s
  pure (digitsValue (whole ++ frac) * 10 ^ (e - frac.length))

def read : List UInt8 → Option ℚ
  | [] => none
  | c :: s => if c = Char.toUInt8 '-' then (magnitude s).map fun q => -q else magnitude (c :: s)

/-! ## The parts of a decimal -/

/-- Nothing of `s` belongs to the digits before it. -/
def Ended (s : List UInt8) : Prop := ∀ c ∈ s.head?, ¬ IsDigit c

theorem ended_nil : Ended [] := fun _ h => absurd h (by simp)

theorem ended_cons {c : UInt8} (h : ¬ IsDigit c) (s : List UInt8) : Ended (c :: s) := by
  rintro _ ⟨⟩
  exact h

theorem span_digits {ds s : List UInt8} (h : ∀ c ∈ ds, IsDigit c) (hs : Ended s) :
    (ds ++ s).span (fun c => IsDigit c) = (ds, s) :=
  span_append (fun c hc => decide_eq_true (h c hc)) fun c hc => by simpa using hs c hc

variable {whole frac s : List UInt8} {n : Nat} {e : Int}

theorem magnitude_point (hw : ∀ c ∈ whole, IsDigit c) (hf : ∀ c ∈ frac, IsDigit c) (hne : whole ++ frac ≠ [])
    (hs : Ended s) (he : exponent s = some e) :
    magnitude (whole ++ Char.toUInt8 '.' :: (frac ++ s)) =
      some (digitsValue (whole ++ frac) * 10 ^ (e - frac.length) : ℚ) := by
  have hpoint : Ended (Char.toUInt8 '.' :: (frac ++ s)) := ended_cons (by decide) _
  have hfrac : fraction (Char.toUInt8 '.' :: (frac ++ s)) = (frac, s) := by
    rw [fraction, if_pos rfl, span_digits hf hs]
  simp only [magnitude, span_digits hw hpoint, hfrac, he, guard, if_pos hne, Option.pure_def, Option.bind_eq_bind,
    Option.bind_some]

theorem magnitude_whole (hw : ∀ c ∈ whole, IsDigit c) (hne : whole ≠ []) (he : exponent (Char.toUInt8 'e' :: s) = some e) :
    magnitude (whole ++ Char.toUInt8 'e' :: s) = some (digitsValue whole * 10 ^ e : ℚ) := by
  have hletter : Ended (Char.toUInt8 'e' :: s) := ended_cons (by decide) _
  have hfrac : fraction (Char.toUInt8 'e' :: s) = ([], Char.toUInt8 'e' :: s) := by
    rw [fraction, if_neg (by decide)]
  simp only [magnitude, span_digits hw hletter, hfrac, he, guard, List.append_nil, if_pos hne, Option.pure_def,
    Option.bind_eq_bind, Option.bind_some, List.length_nil, Nat.cast_zero, sub_zero]

theorem exponent_ofInt (K : Int) : exponent (Char.toUInt8 'e' :: ofInt K) = some K := by
  rw [exponent, if_pos rfl, parse_ofInt]

theorem read_of_digit {c : UInt8} (h : IsDigit c) (s : List UInt8) : read (c :: s) = magnitude (c :: s) := by
  have hc : c ≠ Char.toUInt8 '-' := by
    rintro rfl
    exact absurd h (by decide)
  rw [read, if_neg hc]

theorem read_minus (s : List UInt8) : read (Char.toUInt8 '-' :: s) = (magnitude s).map fun q => -q := by
  rw [read, if_pos rfl]

-- "-1.25e-7" and "5"
example : read [45, 49, 46, 50, 53, 101, 45, 55] = some (-125 * 10 ^ (-9 : Int)) ∧ read [53] = some 5 := by
  decide +kernel

end Decimal

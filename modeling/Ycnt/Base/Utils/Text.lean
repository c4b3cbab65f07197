import Mathlib.Algebra.Ring.Nat
import Ycnt.Base.Utils
/-!
# How far the text of a number reaches

What `convert`, `Prettify` and `WriteExponent` store from their pointer on, the
trailing NUL included: at most 22 bytes for an integer, and 26 for `length`
digits that are at most 18.
-/

namespace Ycnt

open Total FixedBuffer

variable {SIZE : Nat} {b : FixedBuffer SIZE} {buf : Int}

/-! ## Integers -/

theorem zero_ends {lsd : Int} (h : -9 ≤ lsd ∧ lsd ≤ 9) : Ends (zero lsd) fun _ => True := by
  have hlt : (9 + lsd).toNat < digits.length := by
    have : digits.length = 19 := rfl
    omega
  unfold zero
  rw [if_pos (by omega), List.getElem?_eq_getElem hlt]
  exact ends_some trivial

theorem tmod_ten (i : Int) : -9 ≤ i.tmod 10 ∧ i.tmod 10 ≤ 9 := by
  have hten : (0 : Int) < 10 := by omega
  have h1 := Int.tmod_lt_of_pos i hten
  have h2 := Int.lt_tmod_of_pos i hten
  omega

/-- The loop of `convert` at `p`, where `i` is left: it has as many digits as there is room for. -/
structure Converting (b : FixedBuffer SIZE) (buf : Int) (b' : FixedBuffer SIZE) (p i : Int) : Prop where
  keeps : b.Keeps b'
  low : buf ≤ p
  high : p < buf + 20
  digits : i.natAbs < 10 ^ (buf + 20 - p).toNat

theorem convertDigit_ends (hb : 0 ≤ buf ∧ buf + 22 ≤ SIZE) {b' : FixedBuffer SIZE} {p i : Int}
    (h : Converting b buf b' p i) :
    Ends (convertDigit (b', p, i)) (Sum.elim
      (fun (b', p', i) => Converting b buf b' p' i ∧ (buf + 20 - p').toNat < (buf + 20 - p).toNat)
      fun (b', p') => b.Keeps b' ∧ buf ≤ p' ∧ p' ≤ buf + 20) := by
  obtain ⟨hk, hlow, hhigh, hdig⟩ := h
  unfold convertDigit
  refine ends_bind (zero_ends (tmod_ten i)) fun c _ => ?_
  refine ends_bind (b'.store_ends (by omega) c) fun b'' hk' => ends_pure ?_
  have hk'' : b.Keeps b'' := hk.trans hk'
  by_cases hi : i.tdiv 10 = 0
  · rw [if_neg (not_not_intro hi)]
    exact ⟨hk'', by omega, by omega⟩
  · rw [if_pos hi]
    have hexp : (buf + 20 - p).toNat = (buf + 20 - (p + 1)).toNat + 1 := by omega
    have hdiv : (i.tdiv 10).natAbs < 10 ^ (buf + 20 - (p + 1)).toNat := by
      rw [hexp, pow_succ] at hdig
      rw [Int.natAbs_tdiv]
      apply Nat.div_lt_of_lt_mul
      rwa [mul_comm]
    -- A digit is left, so there is room for it.
    have hroom : p + 1 < buf + 20 := by
      by_contra hge
      have hzero : (buf + 20 - (p + 1)).toNat = 0 := by omega
      rw [hzero, pow_zero] at hdiv
      omega
    exact ⟨⟨hk'', by omega, hroom, hdiv⟩, by omega⟩

theorem convert_ends {value : Int} (hb : 0 ≤ buf ∧ buf + 22 ≤ SIZE) (hv : value.natAbs < 10 ^ 20) :
    Ends (convert b buf value) fun (len, b') => len ≤ 21 ∧ b.Keeps b' := by
  unfold convert
  have hroom : (buf + 20 - buf).toNat = 20 := by omega
  have hinit : Converting b buf b buf value := ⟨b.keeps_refl, by omega, by omega, by rwa [hroom]⟩
  have hloop : Ends (loop convertDigit turns (b, buf, value))
      fun (b', p') => b.Keeps b' ∧ buf ≤ p' ∧ p' ≤ buf + 20 := by
    apply ends_loop (I := fun (b', p, i) => Converting b buf b' p i) (m := fun (_, p, _) => (buf + 20 - p).toNat)
    · intro _ hs
      exact convertDigit_ends hb hs
    · exact hinit
    · dsimp only [turns]
      omega
  refine ends_bind hloop ?_
  rintro ⟨b₁, p⟩ ⟨hk₁, hlow, hhigh⟩
  refine ends_bind (P := fun (b', p') => b.Keeps b' ∧ buf ≤ p' ∧ p' ≤ buf + 21) ?_ ?_
  · apply ends_ite
    · intro _
      refine ends_bind (b₁.store_ends (by omega) _) fun b₂ hk₂ => ends_pure ?_
      exact ⟨hk₁.trans hk₂, by omega, by omega⟩
    · intro _
      exact ends_pure ⟨hk₁, hlow, by omega⟩
  · rintro ⟨b₂, q⟩ ⟨hk₂, hlow₂, hhigh₂⟩
    refine ends_bind (b₂.store_ends (by omega) 0) fun b₃ hk₃ => ?_
    refine ends_bind (b₃.reverse_ends (by omega)) fun b₄ hk₄ => ends_pure ?_
    exact ⟨by omega, (hk₂.trans hk₃).trans hk₄⟩

/-! ## Floating point -/

theorem storeLut_ends {K : Int} (hb : 0 ≤ buf ∧ buf + 2 ≤ SIZE) (hK : 0 ≤ K ∧ K < 100) :
    Ends (storeLut b buf K) b.Keeps := by
  have hlut : ∀ i, i < 200 → Ends (cDigitsLut[i]? : Option UInt8) fun _ => True := by
    intro i hi
    have hlt : i < cDigitsLut.length := hi
    rw [List.getElem?_eq_getElem hlt]
    exact ends_some trivial
  unfold storeLut
  refine ends_bind (hlut _ (by omega)) fun c _ => ?_
  refine ends_bind (b.store_ends (by omega) c) fun b₁ hk₁ => ?_
  refine ends_bind (hlut _ (by omega)) fun c _ => ?_
  exact (b₁.store_ends (by omega) c).mono fun _ hk₂ => hk₁.trans hk₂

/-- A sign, three digits and the NUL. -/
theorem writeExponent_ends {K : Int} (hb : 0 ≤ buf ∧ buf + 5 ≤ SIZE) : Ends (writeExponent b K buf) b.Keeps := by
  unfold writeExponent
  refine ends_bind (P := fun (b', p, K) => b.Keeps b' ∧ buf ≤ p ∧ p ≤ buf + 1 ∧ 0 ≤ K) ?_ ?_
  · apply ends_ite
    · intro hneg
      refine ends_bind (b.store_ends (by omega) _) fun b₁ hk₁ => ends_pure ?_
      exact ⟨hk₁, by omega, by omega, by omega⟩
    · intro hneg
      exact ends_pure ⟨b.keeps_refl, by omega, by omega, by omega⟩
  rintro ⟨b₁, p, K⟩ ⟨hk₁, hlow, hhigh, hK⟩
  refine ends_bind (P := fun (b', p) => b.Keeps b' ∧ buf ≤ p ∧ p ≤ buf + 4) ?_ ?_
  · apply ends_ite
    · intro _
      refine ends_bind (b₁.store_ends (by omega) _) fun b₂ hk₂ => ?_
      refine ends_bind (storeLut_ends (by omega) (by omega)) fun b₃ hk₃ => ends_pure ?_
      exact ⟨(hk₁.trans hk₂).trans hk₃, by omega, by omega⟩
    intro _
    apply ends_ite
    · intro _
      refine ends_bind (storeLut_ends (by omega) (by omega)) fun b₂ hk₂ => ends_pure ?_
      exact ⟨hk₁.trans hk₂, by omega, by omega⟩
    · intro _
      refine ends_bind (b₁.store_ends (by omega) _) fun b₂ hk₂ => ends_pure ?_
      exact ⟨hk₁.trans hk₂, by omega, by omega⟩
  · rintro ⟨b₂, q⟩ ⟨hk₂, hlow₂, hhigh₂⟩
    exact (b₂.store_ends (by omega) 0).mono fun _ hk₃ => hk₂.trans hk₃

theorem fillZeros_ends {first last : Int} (h0 : 0 ≤ buf + first) (hlast : buf + last ≤ SIZE)
    (hturns : (last - first).toNat < turns) : Ends (fillZeros b buf first last) b.Keeps := by
  unfold fillZeros
  apply ends_loop (I := fun (b', i) => b.Keeps b' ∧ first ≤ i) (m := fun (_, i) => (last - i).toNat)
  · rintro ⟨b₁, i⟩ ⟨hk₁, hi⟩
    apply ends_ite
    · intro hlt
      refine ends_bind (b₁.store_ends (by omega) _) fun b₂ hk₂ => ends_pure ?_
      exact ⟨⟨hk₁.trans hk₂, by omega⟩, by dsimp only; omega⟩
    · intro _
      exact ends_pure hk₁
  · exact ⟨b.keeps_refl, Int.le_refl _⟩
  · exact hturns

/-- The longest text has five zeros behind the point. -/
theorem prettify_ends {length : Nat} {k : Int} (hb : 0 ≤ buf ∧ buf + 26 ≤ SIZE) (hlen : 1 ≤ length ∧ length ≤ 18) :
    Ends (prettify b buf length k) b.Keeps := by
  unfold prettify
  simp only
  apply ends_ite
  · -- 1234e7 -> 12340000000
    intro hkk
    have hturns : (length + k - length : Int).toNat < turns := by
      unfold turns
      omega
    refine ends_bind (fillZeros_ends (by omega) (by omega) hturns) fun b₁ hk₁ => ?_
    refine ends_bind (b₁.store_ends (by omega) _) fun b₂ hk₂ => ?_
    refine ends_bind (b₂.store_ends (by omega) _) fun b₃ hk₃ => ?_
    exact (b₃.store_ends (by omega) _).mono fun _ hk₄ => ((hk₁.trans hk₂).trans hk₃).trans hk₄
  intro _
  apply ends_ite
  · -- 1234e-2 -> 12.34
    intro hkk'
    refine ends_bind (b.memmove_ends (by omega) (by omega)) fun b₁ hk₁ => ?_
    refine ends_bind (b₁.store_ends (by omega) _) fun b₂ hk₂ => ?_
    exact (b₂.store_ends (by omega) _).mono fun _ hk₃ => (hk₁.trans hk₂).trans hk₃
  intro _
  apply ends_ite
  · -- 1234e-6 -> 0.001234
    intro hkk'
    have hturns : (2 - (length + k) - 2 : Int).toNat < turns := by
      unfold turns
      omega
    refine ends_bind (b.memmove_ends (by omega) (by omega)) fun b₁ hk₁ => ?_
    refine ends_bind (b₁.store_ends (by omega) _) fun b₂ hk₂ => ?_
    refine ends_bind (b₂.store_ends (by omega) _) fun b₃ hk₃ => ?_
    refine ends_bind (fillZeros_ends (by omega) (by omega) hturns) fun b₄ hk₄ => ?_
    exact (b₄.store_ends (by omega) _).mono fun _ hk₅ => (((hk₁.trans hk₂).trans hk₃).trans hk₄).trans hk₅
  intro _
  apply ends_ite
  · -- 1e30
    intro _
    refine ends_bind (b.store_ends (by omega) _) fun b₁ hk₁ => ?_
    exact (writeExponent_ends (by omega)).mono fun _ hk₂ => hk₁.trans hk₂
  · -- 1234e30 -> 1.234e33
    intro _
    refine ends_bind (b.memmove_ends (by omega) (by omega)) fun b₁ hk₁ => ?_
    refine ends_bind (b₁.store_ends (by omega) _) fun b₂ hk₂ => ?_
    refine ends_bind (b₂.store_ends (by omega) _) fun b₃ hk₃ => ?_
    exact (writeExponent_ends (by omega)).mono fun _ hk₄ => ((hk₁.trans hk₂).trans hk₃).trans hk₄

end Ycnt

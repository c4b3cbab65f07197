import Ycnt.Base.LogStream
import Ycnt.Base.Utils.Shortest
import Ycnt.Base.Utils.RoundTrip
/-!
# What a log stream shows of a `double`

`dtoa_milo` writes the whole text and returns one more than the number of digits.
The stream keeps that many bytes: a `'.'` is counted, but no sign, no padding zero, no
`"0."` or `".0"` and no exponent.
-/

namespace Ycnt

open Total FixedBuffer

namespace LogStream

/-- `operator<<(double)` adds the text that `dtoa_milo` wrote, all of it. -/
def InFull (b : Buffer) (v : FiniteDouble) (beyond : Nat → UInt32) : Prop :=
  ∃ len b₁ b', dtoaMilo beyond v.u64 b b.cur = some (len, b₁) ∧ call b (.double v beyond) = some b' ∧
    b'.contents = b.contents ++ b₁.cString b.cur ∧ len = (b₁.cString b.cur).length

theorem formatDouble_contents (b : Buffer) (v : FiniteDouble) (beyond : Nat → UInt32) (havail : kMaxNumericSize ≤ b.avail) :
    ∃ len b₁ b', dtoaMilo beyond v.u64 b b.cur = some (len, b₁) ∧ formatDouble b v beyond = some b' ∧
      b'.contents = b.contents ++ (b₁.cString b.cur).take len ∧
      (len = (b₁.cString b.cur).length ↔ doubleValue v.u64 = 0 ∨ PointInside (doubleValue v.u64)) := by
  have hcur := b.length_add_avail
  unfold FixedBuffer.length at hcur
  have hsize : kMaxNumericSize = 32 := rfl
  have hends : Ends (dtoaMilo beyond v.u64 b b.cur) fun (len, b₁) => len ≤ 19 ∧ b.Keeps b₁ :=
    dtoaMilo_ends beyond (by omega) v.finite
  obtain ⟨⟨len, b₁⟩, hdtoa, -, hk⟩ := hends
  obtain ⟨text, hw, hnul, hle, h26, hiff⟩ := dtoaMilo_writes (b := b) (p := b.cur) beyond (by omega) v.finite _ hdtoa
  have htext : b₁.cString b.cur = text := hw.cString hnul (by omega)
  obtain ⟨b', hadd, -⟩ := b₁.add_ends (show b₁.cur + len ≤ kSmallBufferSize by rw [hk.cur]; omega)
  refine ⟨len, b₁, b', hdtoa, ?_, ?_, htext ▸ hiff⟩
  · unfold formatDouble formatNumeric
    rw [if_pos havail]
    dsimp only
    rw [hdtoa]
    exact hadd
  · rw [htext, hw.contents_add (by rw [List.length_append]; omega) _ hadd, List.take_append_of_le_length hle]

/-- Only zero and what has its point between two digits. -/
theorem inFull_iff (b : Buffer) (v : FiniteDouble) (beyond : Nat → UInt32) (havail : kMaxNumericSize ≤ b.avail) :
    InFull b v beyond ↔ doubleValue v.u64 = 0 ∨ PointInside (doubleValue v.u64) := by
  obtain ⟨len, b₁, b', hdtoa, hcall, hcont, hiff⟩ := formatDouble_contents b v beyond havail
  rw [← hiff]
  constructor
  · rintro ⟨_, _, _, hdtoa', -, -, hlen⟩
    obtain ⟨rfl, rfl⟩ := Prod.mk.inj (Option.some.inj (hdtoa'.symm.trans hdtoa))
    exact hlen
  · intro hlen
    refine ⟨len, b₁, b', hdtoa, hcall, ?_, hlen⟩
    rw [hcont, List.take_of_length_le hlen.ge]

/-- 12.5 in an empty stream. -/
theorem inFull_point : InFull (.new fun _ => 0) ⟨0x4029000000000000, by decide⟩ (fun _ => 0) := by
  refine (inFull_iff (.new fun _ => 0) ⟨0x4029000000000000, by decide⟩ (fun _ => 0) (by decide)).2 (.inr ?_)
  have hsign : (0x4029000000000000 : UInt64) &&& kDpSignMask = 0 := by decide
  have hf : (DiyFp.ofDouble 0x4029000000000000).f.toNat = 25 * 2 ^ 48 := by decide
  have he : (DiyFp.ofDouble 0x4029000000000000).e = -49 := by decide
  have hvalue : doubleValue 0x4029000000000000 = 25 / 2 := by
    rw [doubleValue, if_pos hsign, DiyFp.value, hf, he]
    norm_num
  rw [hvalue]
  refine ⟨by norm_num, ?_⟩
  rintro ⟨n, hn⟩
  have : (25 : ℤ) = 2 * n := by
    have : (25 : ℚ) = 2 * n := by linarith
    exact_mod_cast this
  omega

/-- Of -1.5 the stream shows "-1.". -/
theorem sign_not_counted : ¬ ∀ (b : Buffer) (v : FiniteDouble) (beyond : Nat → UInt32), kMaxNumericSize ≤ b.avail →
    InFull b v beyond := by
  intro h
  obtain ⟨len, b₁, b', hdtoa, -, -, hlen⟩ := h (.new fun _ => 0) ⟨0xBFF8000000000000, by decide⟩ (fun _ => 0) (by decide)
  have hrun : (dtoaMilo (fun _ => 0) 0xBFF8000000000000 (.new fun _ => 0 : Buffer) 0).map
      (fun (len, b) => (len, (b.cString 0).length)) = some (3, 4) := by decide +kernel
  have hmap := congrArg (Option.map fun (len, b) => (len, (FixedBuffer.cString b 0).length)) hdtoa
  have h34 := hrun.symm.trans hmap
  obtain ⟨h3, h4⟩ := Prod.mk.inj (Option.some.inj h34)
  rw [← h3] at hlen
  exact absurd (hlen.trans h4.symm) (by decide)

/-- What is shown in full can be read back from the stream. -/
theorem shown_reads_back (b : Buffer) (v : FiniteDouble) (beyond : Nat → UInt32) (havail : kMaxNumericSize ≤ b.avail)
    (hshown : doubleValue v.u64 = 0 ∨ PointInside (doubleValue v.u64)) :
    ∃ b' text, call b (.double v beyond) = some b' ∧ b'.contents = b.contents ++ text ∧ ReadsBack v.u64 text := by
  obtain ⟨len, b₁, b', hdtoa, hcall, hcont, hiff⟩ := formatDouble_contents b v beyond havail
  have hcur := b.length_add_avail
  unfold FixedBuffer.length at hcur
  have hsize : kMaxNumericSize = 32 := rfl
  refine ⟨b', b₁.cString b.cur, hcall, ?_, dtoaMilo_text beyond (by omega) v.finite _ hdtoa⟩
  rw [hcont, List.take_of_length_le (hiff.2 hshown).ge]

theorem shown_reads_back_zero : ∃ b' text, call (.new fun _ => 0) (.double ⟨0, by decide⟩ fun _ => 0) = some b' ∧
    b'.contents = (FixedBuffer.new fun _ => 0 : Buffer).contents ++ text ∧ ReadsBack 0 text := by
  have hzero : doubleValue 0 = 0 := (doubleValue_eq_zero (by decide)).2 rfl
  exact shown_reads_back (.new fun _ => 0) ⟨0, by decide⟩ (fun _ => 0) (by decide) (.inl hzero)

end LogStream

end Ycnt

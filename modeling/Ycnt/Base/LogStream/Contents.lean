import Ycnt.Base.LogStream
import Ycnt.Base.Utils.Convert
/-!
# What a log stream holds

A string is cut off at the end of the buffer, and a number that finds fewer than
`kMaxNumericSize` bytes there is dropped: a later short string may still follow
what stood before the number. So the contents are not a prefix of all that was
inserted, but of what was `kept` of it.
-/

namespace Ycnt

open Total Numeral

namespace LogStream

/-! ## Insertions -/

/-- A text put into a stream, of a number or not. -/
structure Insertion where
  number : Bool
  text : List UInt8

/-- A number that finds `n` bytes in the buffer and too few left. -/
def Insertion.Drops (i : Insertion) (n : Nat) : Prop := i.number = true ∧ kSmallBufferSize - n < kMaxNumericSize

instance (i : Insertion) (n : Nat) : Decidable (i.Drops n) := instDecidableAnd

/-- The contents after an insertion. -/
def insert (l : List UInt8) (i : Insertion) : List UInt8 :=
  if i.Drops l.length then l else (l ++ i.text).take kSmallBufferSize

/-- The texts without those of dropped numbers, where the buffer holds `n` bytes at first. -/
def kept (n : Nat) : List Insertion → List UInt8
  | [] => []
  | i :: is => if i.Drops n then kept n is else i.text ++ kept (min (n + i.text.length) kSmallBufferSize) is

theorem foldl_insert (is : List Insertion) {l : List UInt8} (hl : l.length ≤ kSmallBufferSize) :
    is.foldl insert l = (l ++ kept l.length is).take kSmallBufferSize := by
  induction is generalizing l with
  | nil => simp [kept, List.take_of_length_le hl]
  | cons i is ih =>
    rw [List.foldl_cons]
    by_cases hd : i.Drops l.length
    · rw [insert, if_pos hd, kept, if_pos hd, ih hl]
    · have hlen : ((l ++ i.text).take kSmallBufferSize).length = min (l.length + i.text.length) kSmallBufferSize := by
        rw [List.length_take, List.length_append, Nat.min_comm]
      rw [insert, if_neg hd, kept, if_neg hd, ih (by omega), hlen, ← List.append_assoc]
      by_cases hfit : (l ++ i.text).length ≤ kSmallBufferSize
      · rw [List.take_of_length_le hfit]
      · -- Nothing that follows a full buffer is seen.
        have hfull : ((l ++ i.text).take kSmallBufferSize).length = kSmallBufferSize := by
          rw [List.length_take]
          omega
        calc _ = (l ++ i.text).take kSmallBufferSize := by
              rw [List.take_append_of_le_length hfull.ge, List.take_take, Nat.min_self]
          _ = _ := (List.take_append_of_le_length (by omega)).symm

/-- Of strings nothing is dropped. -/
theorem kept_of_strings {is : List Insertion} (h : ∀ i ∈ is, i.number = false) (n : Nat) : kept n is = is.flatMap (·.text) := by
  induction is generalizing n with
  | nil => rfl
  | cons i is ih =>
    have hd : ¬ i.Drops n := fun hd => Bool.false_ne_true ((h i (by simp)).symm.trans hd.1)
    rw [kept, if_neg hd, List.flatMap_cons, ih fun j hj => h j (by simp [hj])]

/-- What a call inserts; `none` for a floating-point number and for `resetBuffer`. -/
def Call.insertion : Call → Option Insertion
  | .bool v => some ⟨false, [Char.toUInt8 (if v then '1' else '0')]⟩
  | .char v => some ⟨false, [v]⟩
  | .unsignedChar v => some ⟨true, ofInt v.toNat⟩
  | .short v => some ⟨true, ofInt v.toInt⟩
  | .unsignedShort v => some ⟨true, ofInt v.toNat⟩
  | .int v => some ⟨true, ofInt v.toInt⟩
  | .unsignedInt v => some ⟨true, ofInt v.toNat⟩
  | .long v => some ⟨true, ofInt v.toInt⟩
  | .unsignedLong v => some ⟨true, ofInt v.toNat⟩
  | .longLong v => some ⟨true, ofInt v.toInt⟩
  | .unsignedLongLong v => some ⟨true, ofInt v.toNat⟩
  | .float .. => none
  | .double .. => none
  | .charPtr v => some ⟨false, v.getD (['(', 'n', 'u', 'l', 'l', ')'].map Char.toUInt8)⟩
  | .unsignedCharPtr v => some ⟨false, v.getD (['(', 'n', 'u', 'l', 'l', ')'].map Char.toUInt8)⟩
  | .string v => some ⟨false, v⟩
  | .stringView v => some ⟨false, v⟩
  | .buffer v => some ⟨false, v.contents⟩
  | .append data len => some ⟨false, (List.range len).map data⟩
  | .resetBuffer => none

/-! ## The calls -/

theorem contents_append_take (b : Buffer) (buf : Nat → UInt8) (len : Nat) :
    (b.append buf len).2.contents = insert b.contents ⟨false, (List.range len).map buf⟩ := by
  have hcur := b.length_add_avail
  have hd : ¬ Insertion.Drops ⟨false, (List.range len).map buf⟩ b.contents.length := fun h => nomatch h.1
  rw [insert, if_neg hd, List.take_append, FixedBuffer.contents_length, List.take_of_length_le (by simp; omega),
    FixedBuffer.contents_append, ← List.map_take, List.take_range]
  congr 3

theorem contents_appendBytes (b : Buffer) (bytes : List UInt8) :
    (appendBytes b bytes).contents = insert b.contents ⟨false, bytes⟩ := by
  have hbytes : (List.range bytes.length).map (fun i => bytes.getD i 0) = bytes := by
    refine List.ext_getElem (by simp) fun i h1 h2 => ?_
    simp [h2]
  rw [appendBytes, contents_append_take, hbytes]

theorem contents_formatInt (b : Buffer) {v : Int} (hv : v.natAbs < 10 ^ 20) :
    Ends (formatInt b v) fun b' => b'.contents = insert b.contents ⟨true, ofInt v⟩ := by
  have hcur := b.length_add_avail
  have hsize : kMaxNumericSize = 32 := rfl
  have hlen := ofInt_length_le (by decide) hv
  have hdrops : Insertion.Drops ⟨true, ofInt v⟩ b.contents.length ↔ ¬ b.avail ≥ kMaxNumericSize := by
    simp only [Insertion.Drops, FixedBuffer.contents_length, true_and]
    omega
  unfold formatInt formatNumeric
  apply ends_ite
  · intro havail
    rw [insert, if_neg (by rwa [hdrops, not_not])]
    refine ends_bind (convert_writes (by unfold FixedBuffer.length at hcur; omega) hv) ?_
    rintro ⟨len, b'⟩ ⟨rfl, hw, -⟩
    have hroom : b'.cur + (ofInt v).length ≤ kSmallBufferSize := by
      rw [hw.cur]
      unfold FixedBuffer.length at hcur
      omega
    refine ((b'.add_ends hroom).and (hw.contents_add (by simp))).mono fun b'' h => ?_
    rw [h.2, List.take_left, List.take_of_length_le]
    rw [List.length_append, FixedBuffer.contents_length]
    dsimp only
    omega
  · intro havail
    rw [insert, if_pos (hdrops.2 havail)]
    exact ends_pure rfl

/-- One call is one insertion. -/
theorem call_insertion (b : Buffer) {c : Call} {i : Insertion} (hc : c.insertion = some i) :
    Ends (call b c) fun b' => b'.contents = insert b.contents i := by
  cases c with
  | bool | char | string | stringView =>
    obtain rfl := Option.some.inj hc
    exact ends_some (contents_appendBytes b _)
  | charPtr v | unsignedCharPtr v =>
    obtain rfl := Option.some.inj hc
    cases v <;> exact ends_some (contents_appendBytes b _)
  | buffer | append =>
    obtain rfl := Option.some.inj hc
    exact ends_some (contents_append_take b _ _)
  | float | double | resetBuffer => cases hc
  | unsignedChar v | unsignedShort v | unsignedInt v | unsignedLong v | unsignedLongLong v =>
    obtain rfl := Option.some.inj hc
    have := v.toNat_lt
    exact contents_formatInt b (by omega)
  | short v | int v | long v | longLong v =>
    obtain rfl := Option.some.inj hc
    have h1 := v.toInt_lt
    have h2 := v.le_toInt
    exact contents_formatInt b (by omega)

theorem run_insertions (b : Buffer) {calls : List Call} {is : List Insertion} (h : calls.map Call.insertion = is.map some) :
    ∃ b', LogStream.run b calls = some b' ∧ b'.contents = is.foldl insert b.contents := by
  induction calls generalizing b is with
  | nil =>
    obtain rfl : [] = is := by simpa using h
    exact ⟨b, rfl, rfl⟩
  | cons c calls ih =>
    cases is with
    | nil => cases h
    | cons i is =>
      obtain ⟨hi, his⟩ := List.cons.inj h
      obtain ⟨b₁, h1, hc⟩ := call_insertion b hi
      obtain ⟨b', hb', hcont⟩ := ih b₁ his
      exact ⟨b', Lts.System.run_step h1 hb', by rw [hcont, hc, List.foldl_cons]⟩

/-- Strings for which there is room. -/
theorem run_strings (b : Buffer) {calls : List Call} (texts : List (List UInt8))
    (h : calls.map Call.insertion = texts.map fun text => some ⟨false, text⟩)
    (hlen : b.length + texts.flatten.length ≤ kSmallBufferSize) :
    Ends (LogStream.run b calls) fun b' => b'.contents = b.contents ++ texts.flatten := by
  have his : calls.map Call.insertion = (texts.map fun text => (⟨false, text⟩ : Insertion)).map some := by
    rw [h, List.map_map]
    rfl
  obtain ⟨b', hb', hc⟩ := run_insertions b his
  have hkept : kept b.contents.length (texts.map fun text => ⟨false, text⟩) = texts.flatten := by
    rw [kept_of_strings (by simp), List.flatMap_map, List.flatMap_id']
  refine ⟨b', hb', (hc.trans (foldl_insert _ (b.contents_length.trans_le b.cur_le))).trans ?_⟩
  rw [hkept, List.take_of_length_le]
  rwa [List.length_append, FixedBuffer.contents_length]

theorem run_kept (data : Nat → UInt8) (calls : List Call) {is : List Insertion}
    (h : calls.map Call.insertion = is.map some) :
    ∃ b, LogStream.run (.new data) calls = some b ∧ b.contents = (kept 0 is).take kSmallBufferSize := by
  obtain ⟨b, hb, hc⟩ := run_insertions (.new data) h
  refine ⟨b, hb, ?_⟩
  rw [hc, FixedBuffer.contents_new, foldl_insert is (Nat.zero_le _), List.nil_append, List.length_nil]

/-- A stream holds what was kept of its insertions, cut off at the end of the buffer. -/
theorem contents_truncated (data : Nat → UInt8) (calls : List Call) {is : List Insertion}
    (h : calls.map Call.insertion = is.map some) :
    ∃ b, LogStream.run (.new data) calls = some b ∧ b.contents <+: kept 0 is ∧
      ((kept 0 is).length ≤ kSmallBufferSize → b.contents = kept 0 is) := by
  obtain ⟨b, hb, hc⟩ := run_kept data calls h
  exact ⟨b, hb, hc ▸ List.take_prefix _ _, fun hlen => by rw [hc, List.take_of_length_le hlen]⟩

/-- A mixture that overruns the buffer: the last two values find 16 bytes. -/
theorem contents_truncated_full : ∃ b, LogStream.run (.new fun _ => 0)
      [.string (List.replicate 4080 97), .int 5, .bool true] = some b ∧
    b.contents <+: kept 0 [⟨false, List.replicate 4080 97⟩, ⟨true, ofInt 5⟩, ⟨false, [49]⟩] := by
  have his : ([.string (List.replicate 4080 97), .int 5, .bool true] : List Call).map Call.insertion =
      [⟨false, List.replicate 4080 97⟩, ⟨true, ofInt 5⟩, ⟨false, [49]⟩].map some := rfl
  obtain ⟨b, hb, hp, -⟩ := contents_truncated (fun _ => 0) _ his
  exact ⟨b, hb, hp⟩

/-- The number is dropped, and the character behind it is not. -/
theorem number_dropped : ∃ b, LogStream.run (.new fun _ => 0)
      [.string (List.replicate 4080 97), .int 5, .char 120] = some b ∧
    b.contents = List.replicate 4080 97 ++ [120] ∧
    ¬ b.contents <+: List.replicate 4080 97 ++ ofInt 5 ++ [120] := by
  have hlen : (List.replicate 4080 (97 : UInt8)).length = 4080 := List.length_replicate
  generalize List.replicate 4080 (97 : UInt8) = l at hlen ⊢
  have his : ([.string l, .int 5, .char 120] : List Call).map Call.insertion =
      [⟨false, l⟩, ⟨true, ofInt 5⟩, ⟨false, [120]⟩].map some := rfl
  have hkept : kept 0 [⟨false, l⟩, ⟨true, ofInt 5⟩, ⟨false, [120]⟩] = l ++ [120] := by
    simp [kept, Insertion.Drops, kSmallBufferSize, kMaxNumericSize, hlen]
  have hfit : (l ++ [120]).length ≤ kSmallBufferSize := by
    simp [kSmallBufferSize, hlen]
  obtain ⟨b, hb, hc⟩ := run_kept (fun _ => 0) _ his
  rw [hkept, List.take_of_length_le hfit] at hc
  refine ⟨b, hb, hc, ?_⟩
  rw [hc, List.append_assoc, List.prefix_append_right_inj]
  decide

end LogStream

end Ycnt

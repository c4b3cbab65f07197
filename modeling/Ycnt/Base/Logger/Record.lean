import Ycnt.Base.Logger.Header
/-!
# A whole record

A log statement from the constructor of `Logger` to what `~Logger` hands to
`asyncOutput_->append` (`LogStream.cpp`). Header, body and trailer share the
buffer of the stream: the trailer is whole only if the body has left enough room
for it, and `kMaxNumericSize` bytes for the line number.
-/

namespace Ycnt

open Total Numeral LogStream

namespace Logger

/-- `getBasename`: what follows the last slash. -/
def getBasename (filename : List UInt8) : List UInt8 :=
  (filename.reverse.takeWhile (· ≠ Char.toUInt8 '/')).reverse

/-- A log statement: `__FILE__`, `__LINE__`, its level and what is done to its stream. -/
structure LogStatement where
  file : List UInt8
  line : Int32
  level : LogLevel
  body : List Call

namespace LogStatement

def basename_ (st : LogStatement) : List UInt8 := getBasename st.file

/-- The constructor and the body. -/
def write (lt : LocalTime) (now : Nat) (c : ThreadLocals) (data : Nat → UInt8) (st : LogStatement) :
    Option (ThreadLocals × Buffer) := do
  let (c, stream_) ← construct lt now st.level c (.new data)
  let stream_ ← LogStream.run stream_ st.body
  pure (c, stream_)

/-- `~Logger`, up to the record it hands to `asyncOutput_->append`, if it does. -/
def destroy (logLevel : LogLevel) (st : LogStatement) (stream_ : Buffer) : Option (Option (List UInt8)) :=
  if logLevel ≥ st.level then do
    let stream_ ← LogStream.run stream_
      [.charPtr (some ([' ', '-', ' '].map Char.toUInt8)), .stringView st.basename_, .char (Char.toUInt8 ':'), .int st.line,
        .char (Char.toUInt8 '\n')]
    pure (some stream_.contents)
  else pure none

/-- The trailer in front of the line number. -/
def place (st : LogStatement) : List UInt8 :=
  [' ', '-', ' '].map Char.toUInt8 ++ st.basename_ ++ [Char.toUInt8 ':']

def trailer (st : LogStatement) : List UInt8 := st.place ++ ofInt st.line.toInt ++ [Char.toUInt8 '\n']

/-- The stream has room for the trailer: 3 bytes, the basename, 1 byte, and
`kMaxNumericSize` for the line number. -/
def Fits (st : LogStatement) (stream_ : Buffer) : Prop := stream_.length + st.basename_.length + 36 ≤ kSmallBufferSize

variable {st : LogStatement} {stream_ : Buffer} {logLevel : LogLevel}

theorem write_eq {lt : LocalTime} {now : Nat} {c c' : ThreadLocals} {data : Nat → UInt8} {b : Buffer}
    (hb : construct lt now st.level c (.new data) = some (c', b)) (hs : LogStream.run b st.body = some stream_) :
    st.write lt now c data = some (c', stream_) := by
  simp only [write, hb, hs, Option.bind_eq_bind, Option.bind_some, Option.pure_def]

theorem place_length (st : LogStatement) : st.place.length = st.basename_.length + 4 := by
  simp only [place, List.length_append, List.length_map, List.length_cons, List.length_nil]
  omega

theorem line_length_le (st : LogStatement) : (ofInt st.line.toInt).length ≤ 11 := by
  have h1 := st.line.toInt_lt
  have h2 := st.line.le_toInt
  exact ofInt_length_le (k := 10) (by decide) (by omega)

/-- What of the trailer is not dropped. -/
theorem kept_trailer (st : LogStatement) {n : Nat} (hn : n ≤ kSmallBufferSize) :
    kept n [⟨false, [' ', '-', ' '].map Char.toUInt8⟩, ⟨false, st.basename_⟩, ⟨false, [Char.toUInt8 ':']⟩,
        ⟨true, ofInt st.line.toInt⟩, ⟨false, [Char.toUInt8 '\n']⟩] =
      if n + st.basename_.length + 36 ≤ kSmallBufferSize then st.trailer else st.place ++ [Char.toUInt8 '\n'] := by
  have hsize : kSmallBufferSize = 4096 := rfl
  have hnum : kMaxNumericSize = 32 := rfl
  simp only [kept, Insertion.Drops, Bool.false_eq_true, false_and, if_false, true_and, List.length_map, List.length_cons,
    List.length_nil]
  by_cases hf : n + st.basename_.length + 36 ≤ kSmallBufferSize
  · rw [if_pos hf, if_neg (by omega)]
    simp [trailer, place]
  · rw [if_neg hf, if_pos (by omega)]
    simp [place]

/-- What `~Logger` hands over when it finds `stream_`: the trailer comes whole, or
without the line number and cut off at the end of the buffer. -/
structure Handed (st : LogStatement) (stream_ : Buffer) (record : List UInt8) : Prop where
  whole : st.Fits stream_ → record = stream_.contents ++ st.trailer
  cut : ¬ st.Fits stream_ → record = (stream_.contents ++ (st.place ++ [Char.toUInt8 '\n'])).take kSmallBufferSize

theorem destroy_ends (hl : st.level ≤ logLevel) (stream_ : Buffer) :
    Ends (destroy logLevel st stream_) fun o => ∃ record, o = some record ∧ Handed st stream_ record := by
  have hle : stream_.contents.length ≤ kSmallBufferSize := stream_.contents_length.trans_le stream_.cur_le
  have hsize : kSmallBufferSize = 4096 := rfl
  have his : ([.charPtr (some ([' ', '-', ' '].map Char.toUInt8)), .stringView st.basename_, .char (Char.toUInt8 ':'),
      .int st.line, .char (Char.toUInt8 '\n')] : List Call).map Call.insertion =
      [⟨false, [' ', '-', ' '].map Char.toUInt8⟩, ⟨false, st.basename_⟩, ⟨false, [Char.toUInt8 ':']⟩,
        ⟨true, ofInt st.line.toInt⟩, ⟨false, [Char.toUInt8 '\n']⟩].map some := rfl
  unfold destroy
  rw [if_pos hl]
  refine ends_bind (run_insertions stream_ his) fun b hb => ends_pure ⟨b.contents, rfl, ?_⟩
  rw [hb, foldl_insert _ hle, kept_trailer st hle, FixedBuffer.contents_length]
  refine ⟨fun hf => ?_, fun hf => ?_⟩
  · have hplace := st.place_length
    have hline := st.line_length_le
    unfold Fits at hf
    rw [if_pos hf, List.take_of_length_le]
    simp only [trailer, List.length_append, List.length_singleton, FixedBuffer.contents_length]
    omega
  · unfold Fits at hf
    rw [if_neg hf]

/-! ## When the trailer is whole -/

theorem Handed.eq_iff {record : List UInt8} (h : Handed st stream_ record) :
    record = stream_.contents ++ st.trailer ↔ st.Fits stream_ := by
  refine ⟨fun heq => ?_, h.whole⟩
  by_contra hf
  -- The line number is missing, so the record is too short.
  have hlen := congrArg List.length (heq.symm.trans (h.cut hf))
  have hline := List.length_pos_of_ne_nil (ofInt_ne_nil st.line.toInt)
  simp only [trailer, List.length_append, List.length_take, List.length_singleton] at hlen
  omega

/-- A body that leaves no room for the trailer ends the record with one only if it
fills the buffer and ends so itself. -/
theorem Handed.suffix_iff {record : List UInt8} (h : Handed st stream_ record)
    (hbase : Char.toUInt8 '\n' ∉ st.basename_) :
    st.trailer <:+ record ↔
      st.Fits stream_ ∨ (stream_.length = kSmallBufferSize ∧ st.trailer <:+ stream_.contents) := by
  have hle : stream_.length ≤ kSmallBufferSize := stream_.cur_le
  by_cases hf : st.Fits stream_
  · rw [h.whole hf]
    exact iff_of_true (List.suffix_append _ _) (.inl hf)
  rw [or_iff_right hf, h.cut hf]
  have hlen : stream_.contents.length = stream_.length := stream_.contents_length
  by_cases hfull : stream_.length = kSmallBufferSize
  · rw [List.take_append_of_le_length (by omega), List.take_of_length_le (by omega), and_iff_right hfull]
  refine iff_of_false ?_ fun hr => hfull hr.1
  rintro ⟨x, hx⟩
  by_cases hcut : stream_.length + st.place.length + 1 ≤ kSmallBufferSize
  · -- In front of the newline stands the colon, not a digit of the line number.
    rw [List.take_of_length_le (by simp only [List.length_append, List.length_singleton]; omega), trailer,
      ← List.append_assoc, ← List.append_assoc, ← List.append_assoc] at hx
    have hlast := congrArg List.getLast? (List.append_cancel_right hx)
    obtain ⟨c, hc⟩ := Option.isSome_iff_exists.1 (List.getLast?_isSome.2 (ofInt_ne_nil st.line.toInt))
    have hcolon : st.place.getLast? = some (Char.toUInt8 ':') := by
      rw [place, List.getLast?_concat]
    simp only [List.getLast?_append, hc, hcolon, Option.some_or] at hlast
    obtain rfl := Option.some.inj hlast
    rcases mem_ofInt (List.mem_of_getLast? hc) with h' | h'
    · exact absurd h' (by decide)
    · exact absurd h' (by decide)
  · -- The newline is cut off, and what is left of the trailer has none.
    have hroom : kSmallBufferSize - stream_.length ≤ st.place.length := by omega
    have hne : st.place.take (kSmallBufferSize - stream_.length) ≠ [] := by
      rw [← List.length_pos_iff, List.length_take]
      omega
    obtain ⟨c, hc⟩ := Option.isSome_iff_exists.1 (List.getLast?_isSome.2 hne)
    rw [List.take_append, List.take_of_length_le (by omega), hlen, List.take_append_of_le_length hroom] at hx
    have hlast := congrArg List.getLast? hx
    simp only [trailer, List.getLast?_append, hc, List.getLast?_singleton, Option.some_or] at hlast
    obtain rfl := Option.some.inj hlast
    have hmem := List.mem_of_mem_take (List.mem_of_getLast? hc)
    simp only [place, List.mem_append, hbase, or_false] at hmem
    exact absurd hmem (by decide)

/-- A record that ends with a whole trailer, before its newline. -/
def line_ (st : LogStatement) (stream_ : Buffer) : List UInt8 := stream_.contents ++ st.place ++ ofInt st.line.toInt

theorem Handed.eq_line {record : List UInt8} (h : Handed st stream_ record) (hf : st.Fits stream_) :
    record = st.line_ stream_ ++ [Char.toUInt8 '\n'] := by
  rw [h.whole hf, trailer, line_]
  simp only [List.append_assoc]

theorem newline_not_mem_line (hbody : Char.toUInt8 '\n' ∉ stream_.contents)
    (hbase : Char.toUInt8 '\n' ∉ st.basename_) : Char.toUInt8 '\n' ∉ st.line_ stream_ := by
  simp only [line_, place, List.mem_append, hbody, hbase, false_or, or_false, not_or]
  refine ⟨by decide, fun h => ?_⟩
  rcases mem_ofInt h with h' | h'
  · exact absurd h' (by decide)
  · exact absurd h' (by decide)

end LogStatement

open LogStatement

/-- The record of an emitted statement ends with the whole trailer exactly when the
trailer fits behind header and body. Records that fit, with no newline in header,
body and basename, are one line each. -/
theorem record_complete_iff (lt : LocalTime) (logLevel : LogLevel) :
    (∀ (st : LogStatement) (now : Nat) (c : ThreadLocals) (data : Nat → UInt8), st.level ≤ logLevel →
      ∃ c' stream_ record, st.write lt now c data = some (c', stream_) ∧
        st.destroy logLevel stream_ = some (some record) ∧
        (record = stream_.contents ++ st.trailer ↔ st.Fits stream_) ∧
        (Char.toUInt8 '\n' ∉ st.basename_ → (st.trailer <:+ record ↔
          st.Fits stream_ ∨ (stream_.length = kSmallBufferSize ∧ st.trailer <:+ stream_.contents)))) ∧
    ∀ l : List (LogStatement × Buffer × List UInt8),
      (∀ e ∈ l, e.1.level ≤ logLevel ∧ e.1.destroy logLevel e.2.1 = some (some e.2.2) ∧ e.1.Fits e.2.1 ∧
        Char.toUInt8 '\n' ∉ e.2.1.contents ∧ Char.toUInt8 '\n' ∉ e.1.basename_) →
      (l.flatMap (·.2.2)).splitOn (Char.toUInt8 '\n') = l.map (fun e => e.1.line_ e.2.1) ++ [[]] := by
  refine ⟨fun st now c data hl => ?_, fun l hl => ?_⟩
  · obtain ⟨⟨c', b⟩, hb, -⟩ := construct_ends lt now st.level c data
    obtain ⟨stream_, hs, -⟩ := run_ends b st.body
    obtain ⟨_, hd, record, rfl, h⟩ := destroy_ends hl stream_
    exact ⟨c', stream_, record, write_eq hb hs, hd, h.eq_iff, h.suffix_iff⟩
  · induction l with
    | nil => rfl
    | cons e l ih =>
      obtain ⟨⟨hlev, hd, hf, hbody, hbase⟩, hl⟩ := List.forall_mem_cons.1 hl
      obtain ⟨_, hd', record, rfl, h⟩ := destroy_ends hlev e.2.1
      obtain rfl : record = e.2.2 := by simpa [hd] using hd'.symm
      rw [List.flatMap_cons, List.map_cons, h.eq_line hf, List.append_assoc, List.singleton_append,
        List.splitOn_append_cons_self_of_not_mem (newline_not_mem_line hbody hbase), ih hl, List.cons_append]

def shortStatement : LogStatement := ⟨['/', 'a', '.', 'c', 'p', 'p'].map Char.toUInt8, 42, .INFO, [.bool true]⟩

theorem record_complete_short : ∃ c' stream_ record,
    shortStatement.write HeadersState.digitsTime 1569500000000000 .initial (fun _ => 0) = some (c', stream_) ∧
    shortStatement.destroy .INFO stream_ = some (some record) ∧ record = stream_.contents ++ shortStatement.trailer := by
  obtain ⟨c', stream_, record, hw, hd, hiff, -⟩ :=
    (record_complete_iff HeadersState.digitsTime .INFO).1 shortStatement 1569500000000000 .initial (fun _ => 0) le_rfl
  have hlen : (shortStatement.write HeadersState.digitsTime 1569500000000000 .initial fun _ => 0).map (·.2.length) =
      some 41 := by
    decide +kernel
  rw [hw] at hlen
  have hlen' : stream_.length = 41 := Option.some.inj hlen
  refine ⟨c', stream_, record, hw, hd, hiff.2 ?_⟩
  rw [Fits, hlen']
  decide

/-- A body longer than the buffer. -/
def longStatement : LogStatement :=
  ⟨['/', 'a', '.', 'c', 'p', 'p'].map Char.toUInt8, 42, .INFO, [.string (List.replicate 5000 97)]⟩

/-- It leaves nothing of the trailer. -/
theorem trailer_lost : ∃ c' stream_ record,
    longStatement.write HeadersState.digitsTime 1569500000000000 .initial (fun _ => 0) = some (c', stream_) ∧
    longStatement.destroy .INFO stream_ = some (some record) ∧ ¬ longStatement.trailer <:+ record := by
  have hsize : kSmallBufferSize = 4096 := rfl
  have hl : longStatement.level ≤ .INFO := le_rfl
  have hbase : Char.toUInt8 '\n' ∉ longStatement.basename_ := by decide
  obtain ⟨⟨c', b⟩, hb, -, hcont⟩ := construct_ends HeadersState.digitsTime 1569500000000000 .INFO .initial fun _ => 0
  have hins : (Call.string (List.replicate 5000 97)).insertion = some ⟨false, List.replicate 5000 97⟩ := rfl
  obtain ⟨stream_, hs, hstream⟩ := call_insertion b hins
  obtain ⟨_, hd, record, rfl, h⟩ := destroy_ends hl stream_
  have hdrops : ¬ Insertion.Drops ⟨false, List.replicate 5000 97⟩ b.contents.length := fun hd => nomatch hd.1
  -- The header is shorter than the buffer, so the last byte is one of the body.
  have hheader : b.contents.length ≤ 66 := by
    have htid := c'.t_tidStringLength_le
    have hmicro := microsecondsText_length 1569500000000000
    rw [hcont]
    simp only [List.length_append, List.length_take, List.length_singleton, hmicro, LogLevelName_length]
    omega
  have hcontents : stream_.contents = b.contents ++ List.replicate (kSmallBufferSize - b.contents.length) 97 := by
    rw [hstream, LogStream.insert, if_neg hdrops, List.take_append, List.take_of_length_le (by omega),
      List.take_replicate, Nat.min_eq_left (by omega)]
  have hfull : stream_.length = kSmallBufferSize := by
    rw [← FixedBuffer.contents_length, hcontents, List.length_append, List.length_replicate]
    omega
  have hrun : LogStream.run b longStatement.body = some stream_ := Lts.System.run_cons.2 ⟨stream_, hs, rfl⟩
  refine ⟨c', stream_, record, write_eq hb hrun, hd, fun hsuffix => ?_⟩
  rcases (h.suffix_iff hbase).1 hsuffix with hf | ⟨-, x, hx⟩
  · unfold Fits at hf
    omega
  · have hlast := congrArg List.getLast? (hx.trans hcontents)
    have hne : kSmallBufferSize - b.contents.length ≠ 0 := by omega
    simp only [trailer, List.getLast?_append, List.getLast?_singleton, List.getLast?_replicate, if_neg hne,
      Option.some_or] at hlast
    exact absurd (Option.some.inj hlast) (by decide)

end Logger

end Ycnt

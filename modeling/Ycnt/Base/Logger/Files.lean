import Mathlib.Data.List.ReduceOption
import Ycnt.Base.AsyncLogging.Files
import Ycnt.Base.Logger.Read
/-!
# From a log statement to the files

Threads that log, the asynchronous logger and its files as one system. What the kernel
has of the files is read again: of each thread the statements it logged, in their order,
and the notices of dropped buffers in between.
-/

namespace Ycnt

open Function Total Numeral LogStream

namespace Logger

/-! ## Reading on -/

/-- A line that is cut off is not read. -/
theorem readLog_part {s : List UInt8} (h : Char.toUInt8 '\n' ∉ s) : readLog s = [] := by
  rw [readLog, List.splitOn_eq_singleton h]
  rfl

theorem readLog_prefix {s s' : List UInt8} (h : s <+: s') : readLog s <+: readLog s' := by
  by_cases hmem : Char.toUInt8 '\n' ∈ s
  · obtain ⟨line, rest, rfl, hline⟩ := List.eq_append_cons_of_mem hmem
    obtain ⟨t, rfl⟩ := h
    rw [List.append_assoc, List.cons_append, readLog_cons hline, readLog_cons hline]
    exact List.cons_prefix_cons.2 ⟨rfl, readLog_prefix (List.prefix_append rest t)⟩
  · rw [readLog_part hmem]
    exact List.nil_prefix
termination_by s.length

/-- A text of whole lines: behind it a new line begins. -/
def Lines (s : List UInt8) : Prop := ∀ t, readLog (s ++ t) = readLog s ++ readLog t

theorem lines_singleton {line : List UInt8} (h : Char.toUInt8 '\n' ∉ line) :
    Lines (line ++ [Char.toUInt8 '\n']) ∧ readLog (line ++ [Char.toUInt8 '\n']) = [readLine line] := by
  have hread := readLog_cons h []
  refine ⟨fun t => ?_, hread⟩
  rw [hread, List.append_assoc, List.singleton_append, readLog_cons h]
  rfl

theorem lines_flatMap {α : Type*} {l : List α} {f : α → List UInt8} (h : ∀ a ∈ l, Lines (f a)) :
    Lines (l.flatMap f) ∧ readLog (l.flatMap f) = l.flatMap fun a => readLog (f a) := by
  induction l with
  | nil => exact ⟨fun _ => rfl, rfl⟩
  | cons a l ih =>
    obtain ⟨ha, hl⟩ := List.forall_mem_cons.1 h
    obtain ⟨hlines, hread⟩ := ih hl
    refine ⟨fun t => ?_, ?_⟩
    · rw [List.flatMap_cons, List.append_assoc, ha, hlines, ha, List.append_assoc]
    · rw [List.flatMap_cons, ha, hread, List.flatMap_cons]

/-! ## Notices -/

/-- A notice without its newline. -/
def noticeLine (now : List UInt8) (count : Nat) : List UInt8 :=
  ['D', 'r', 'o', 'p', 'p', 'e', 'd', ' ', 'l', 'o', 'g', ' ', 'm', 'e', 's', 's', 'a', 'g', 'e', 's', ' ', 'a', 't',
    ' '].map Char.toUInt8 ++ now ++ [',', ' '].map Char.toUInt8 ++ ofNat count ++
    [' ', 'l', 'a', 'r', 'g', 'e', 'r', ' ', 'b', 'u', 'f', 'f', 'e', 'r', 's'].map Char.toUInt8

theorem noticeText_eq (now : List UInt8) (count : Nat) :
    noticeText now count = noticeLine now count ++ [Char.toUInt8 '\n'] := by
  simp [noticeText, noticeLine]

/-- No statement wrote it: where the microseconds stand in a record, it has a blank. -/
theorem readLine_notice (now : List UInt8) (count : Nat) : readLine (noticeLine now count) = none := by
  have hmicro : parseNat (((((noticeLine now count).drop 19).take 8).drop 1).take 6) = none := by
    refine if_neg fun h => absurd (h.2 (Char.toUInt8 ' ') ?_) (by decide)
    simp [noticeLine]
  simp only [readLine, List.splitAt_eq, hmicro, Option.bind_eq_bind, Option.bind_none]

theorem newline_notMem_notice (now : Timestamp) (count : Nat) :
    Char.toUInt8 '\n' ∉ noticeLine (now.toFormattedString true) count := by
  have hc : ¬ (Char.toUInt8 '\n' = Char.toUInt8 '-' ∨ IsDigit (Char.toUInt8 '\n')) := by decide
  have hnow : Char.toUInt8 '\n' ∉ now.toFormattedString true := by
    have hdot : Char.toUInt8 '\n' ≠ Char.toUInt8 '.' := by decide
    simp [Timestamp.toFormattedString_eq, Timestamp.formattedText, notMem_zeroPadded hc, hdot,
      Timestamp.notMem_calendarText hc (by decide) (by decide)]
  have hcount : Char.toUInt8 '\n' ∉ ofNat count := fun h => hc (.inr ((ofNat_canonical count).digits _ h))
  simp only [noticeLine, List.mem_append, hnow, hcount, or_false]
  decide

theorem lines_notice (now : Timestamp) {count : Nat} (h : count < 2 ^ 64) :
    Lines (FileAppend.notice (asString (now.toFormattedString true)) count).bytes ∧
      readLog (FileAppend.notice (asString (now.toFormattedString true)) count).bytes = [none] := by
  rw [notice_bytes now h, noticeText_eq, ← readLine_notice (now.toFormattedString true) count]
  exact lines_singleton (newline_notMem_notice now count)

end Logger

namespace LoggingToFile

variable {n : Nat} [NeZero n] {s s' : FileState n} {basename : Bytes} {rollSize : Nat} {before : Disk}
  {as : List (FileLabel n)}

/-- The notices show times of the clock. -/
def Notices (output : List FileAppend) : Prop :=
  ∀ now count, .notice now count ∈ output → ∃ t : Timestamp, now = asString (t.toFormattedString true)

theorem step_notices {a : FileLabel n} (hb : s.log.owner = .constructed → s.log.back = .notStarted)
    (h : Notices s.log.output) (hs : s.step basename rollSize before a = some s') : Notices s'.log.output := by
  cases a with
  | log a =>
    cases a with
    | back now => cases hs
    | start | stop | owner | append tid l | front tid | timeout =>
      obtain ⟨log, hlog, rfl⟩ := Option.map_eq_some_iff.1 hs
      rw [(AsyncState.step_output hb (fun _ h => by cases h) hlog).1]
      exact h
  | back a =>
    obtain ⟨log, hlog, hs⟩ := Option.bind_eq_some_iff.1 hs
    obtain ⟨o, -, hs⟩ := Option.bind_eq_some_iff.1 hs
    obtain rfl := Option.some.inj hs
    rw [(AsyncState.backStep_calls hlog).1]
    intro now count hm
    rcases List.mem_append.1 hm with hm | hm
    · exact h now count hm
    · unfold AsyncState.calls at hm
      split at hm
      · split at hm
        · obtain ⟨rfl, -⟩ := FileAppend.notice.inj (List.mem_singleton.1 hm)
          exact ⟨a.now, rfl⟩
        · cases hm
      · simp at hm
      · cases hm

theorem run_notices (hr : (LoggingToFile n basename rollSize before).run ⟨.create, none⟩ as = some s) :
    Notices s.log.output := by
  have h0 : (AsyncLogging n).init .create := rfl
  have hall := Lts.System.run_inv_of (I := fun s : FileState n => (AsyncLogging n).Reachable s.log ∧ Notices s.log.output)
    (Q := fun _ => True) (fun s a s' _ hi hs => ?_) (fun _ _ => trivial) hr ⟨.init h0, fun _ _ hm => by cases hm⟩
  · exact hall.2
  · exact ⟨hi.1.step (step_log hs), step_notices (AsyncLogging.unstarted hi.1) hi.2 hs⟩

end LoggingToFile

/-! ## The system -/

/-- What `~Logger` hands to `append`, which is never longer than a buffer. -/
def Line.ofRecord (record : List UInt8) : Line where
  logline i := record.getD i 0
  len := min record.length kLargeBufferSize
  len_le := Nat.min_le_right _ _

theorem Line.ofRecord_bytes {record : List UInt8} (h : record.length ≤ kLargeBufferSize) :
    (Line.ofRecord record).bytes = record := by
  refine List.ext_getElem ?_ fun i _ hi => ?_
  · simp [bytes, ofRecord, h]
  · simp [bytes, ofRecord, hi]

/-- Threads that log, and the logger that writes their records. -/
structure ProgramState (τ : Type) (n : Nat) where
  records : RecordsState τ
  file : FileState n

inductive ProgramLabel (τ : Type) (n : Nat) where
  /-- The first call of `Logger::init`. -/
  | init (t : τ)
  | tid (t : τ)
  /-- A whole log statement, up to the lock in `append`. The `stop` and the `abort` that
  follow a FATAL record are not part of it. -/
  | log (t : τ) (now : Nat) (data : Nat → UInt8) (st : Logger.LogStatement)
  /-- A step of the asynchronous logger. -/
  | file (a : FileLabel n)

namespace ProgramState

variable {τ : Type} [DecidableEq τ] {n : Nat} [NeZero n] (lt : LocalTime) (gettid : τ → Tid) (logLevel : LogLevel)
  (basename : Bytes) (rollSize : Nat) (before : Disk)

def step (s : ProgramState τ n) : ProgramLabel τ n → Option (ProgramState τ n)
  | .init t => do
    let records ← s.records.step lt gettid logLevel (.init t)
    let file ← s.file.step basename rollSize before (.log .start)
    some ⟨records, file⟩
  | .tid t => (s.records.step lt gettid logLevel (.tid t)).map fun records => { s with records }
  | .log t now data st =>
    match s.file.log.front (gettid t).val with
    | .idle => do
      let records ← s.records.step lt gettid logLevel (.log t now data st)
      let (_, stream_) ← st.write lt now (s.records.locals t) data
      match ← st.destroy logLevel stream_ with
      | some record =>
        -- `append` asks for the tid, which may be the first time in this thread.
        let records ← records.step lt gettid logLevel (.tid t)
        let file ← s.file.step basename rollSize before (.log (.append (gettid t).val (.ofRecord record)))
        some ⟨records, file⟩
      | none => some { s with records }
    | _ => none
  -- Only `init` starts the logger, and only log statements call `append`.
  | .file (.log .start) | .file (.log (.append _ _)) => none
  | .file a => (s.file.step basename rollSize before a).map fun file => { s with file }

omit [DecidableEq τ] [NeZero n] in
def Fresh (s : ProgramState τ n) : Prop := s.records.Fresh ∧ s.file = ⟨.create, none⟩

end ProgramState

/-- Threads that log under the level `logLevel` to `n` buckets and the files of one process. -/
def LoggingProgram (τ : Type) [DecidableEq τ] (n : Nat) [NeZero n] (lt : LocalTime) (gettid : τ → Tid) (logLevel : LogLevel)
    (basename : Bytes) (rollSize : Nat) (before : Disk) : Lts.System (ProgramState τ n) (ProgramLabel τ n) where
  init s := s.Fresh
  step s a := s.step lt gettid logLevel basename rollSize before a

/-! ## The calls of `append` -/

/-- The record of a logged statement that fits. -/
def LoggedStatement.record {τ : Type*} (e : LoggedStatement τ) : List UInt8 :=
  e.statement.line_ e.stream_ ++ [Char.toUInt8 '\n']

/-- The call of `append` for a logged statement. -/
def LoggedStatement.call {τ : Type*} (gettid : τ → Tid) (e : LoggedStatement τ) : Nat × Line :=
  ((gettid e.thread).val, .ofRecord e.record)

namespace RecordsState

open Logger

variable {τ : Type*} [DecidableEq τ] {lt : LocalTime} {gettid : τ → Tid} {logLevel : LogLevel} {s s' : RecordsState τ}

/-- A statement that fits hands over its whole line, or nothing. -/
theorem log_inv {t : τ} {now : Nat} {data : Nat → UInt8} {st : LogStatement} (hl : s.Legible lt (.log t now data st))
    (h : s.step lt gettid logLevel (.log t now data st) = some s') :
    ∃ c stream_, st.write lt now (s.locals t) data = some (c, stream_) ∧
      ((st.destroy logLevel stream_ = some none ∧ s'.logged = s.logged) ∨
        (st.destroy logLevel stream_ = some (some (LoggedStatement.record ⟨t, now, stream_, st⟩)) ∧
          s'.logged = s.logged ++ [⟨t, now, stream_, st⟩] ∧
          (LoggedStatement.record ⟨t, now, stream_, st⟩).length ≤ kLargeBufferSize)) := by
  obtain ⟨-, -, -, -, -, hfits⟩ := hl
  simp only [step, Option.ite_none_right_eq_some, Option.bind_eq_some_iff, Option.map_eq_some_iff, Prod.exists] at h
  obtain ⟨-, c, stream_, hw, record, hd, hs'⟩ := h
  obtain ⟨hfit, -⟩ := hfits _ _ hw
  refine ⟨c, stream_, hw, ?_⟩
  by_cases hemit : st.level ≤ logLevel
  · obtain ⟨_, hd', record', rfl, hrec⟩ := LogStatement.destroy_ends hemit stream_
    obtain rfl := Option.some.inj (hd'.symm.trans hd)
    obtain rfl := hs'
    refine .inr ⟨?_, rfl, ?_⟩
    · rw [hd', hrec.eq_line hfit]
      rfl
    · have hplace := st.place_length
      have hline := st.line_length_le
      have hlarge : kLargeBufferSize = 4096 * 1024 := rfl
      have hsmall : kSmallBufferSize = 4096 := rfl
      unfold LogStatement.Fits at hfit
      simp only [LoggedStatement.record, LogStatement.line_, List.length_append, List.length_singleton,
        FixedBuffer.contents_length]
      omega
  · unfold LogStatement.destroy at hd ⊢
    rw [if_neg hemit] at hd ⊢
    obtain rfl := Option.some.inj hd
    obtain rfl := hs'
    exact .inl ⟨rfl, rfl⟩

end RecordsState

namespace ProgramState

open Logger LoggingToFile

variable {τ : Type} [DecidableEq τ] {n : Nat} [NeZero n] {lt : LocalTime} {gettid : τ → Tid} {logLevel : LogLevel}
  {basename : Bytes} {rollSize : Nat} {before : Disk} {s s' t : ProgramState τ n} {calls : List (Nat × Line)}
  {file file' : FileState n}

/-- The logger got here by these calls of `append`, on a system that works. -/
def Called (basename : Bytes) (rollSize : Nat) (before : Disk) (calls : List (Nat × Line)) (file : FileState n) : Prop :=
  ∃ bs, (LoggingToFile n basename rollSize before).run ⟨.create, none⟩ bs = some file ∧ (∀ b ∈ bs, b.Works) ∧
    bs.flatMap (fun b => (logLabel b).call) = calls

theorem Called.step {b : FileLabel n} (h : Called basename rollSize before calls file) (hb : b.Works)
    (hs : file.step basename rollSize before b = some file') :
    Called basename rollSize before (calls ++ (logLabel b).call) file' := by
  obtain ⟨bs, hr, hw, hc⟩ := h
  refine ⟨bs ++ [b], Lts.System.run_append.2 ⟨file, hr, Lts.System.run_step hs rfl⟩, ?_, ?_⟩
  · rw [List.forall_mem_append]
    exact ⟨hw, List.forall_mem_singleton.2 hb⟩
  · rw [List.flatMap_append, hc, List.flatMap_singleton]

/-- The condition of a step: a statement fits, and the system works for the back end. -/
def Legible (lt : LocalTime) (s : ProgramState τ n) : ProgramLabel τ n → Prop
  | .log t now data st => s.records.Legible lt (.log t now data st)
  | .file a => a.Works
  | _ => True

/-- The records are the calls of `append`. -/
structure Logs (lt : LocalTime) (gettid : τ → Tid) (basename : Bytes) (rollSize : Nat) (before : Disk)
    (s : ProgramState τ n) : Prop where
  readable : s.records.Readable lt gettid
  length : ∀ e ∈ s.records.logged, e.record.length ≤ kLargeBufferSize
  called : Called basename rollSize before (s.records.logged.map (·.call gettid)) s.file

omit [DecidableEq τ] in
theorem Fresh.logs (h : s.Fresh) : Logs lt gettid basename rollSize before s := by
  obtain ⟨hrecords, hfile⟩ := h
  have hlogged : s.records.logged = [] := hrecords.2.2.2
  refine ⟨hrecords.readable, ?_, [], ?_, ?_, ?_⟩
  · simp [hlogged]
  · rw [hfile]
    rfl
  · simp
  · simp [hlogged]

/-- The logger's own steps call no `append`. -/
theorem file_inv {a : FileLabel n} (hs : s.step lt gettid logLevel basename rollSize before (.file a) = some s') :
    s.file.step basename rollSize before a = some s'.file ∧ s'.records = s.records ∧ (logLabel a).call = [] := by
  cases a with
  | back b =>
    obtain ⟨file, hfile, rfl⟩ := Option.map_eq_some_iff.1 hs
    exact ⟨hfile, rfl, rfl⟩
  | log a =>
    cases a with
    | start | append | back => cases hs
    | stop | owner | front | timeout =>
      obtain ⟨file, hfile, rfl⟩ := Option.map_eq_some_iff.1 hs
      exact ⟨hfile, rfl, rfl⟩

theorem step_logs {a : ProgramLabel τ n} (h : Logs lt gettid basename rollSize before s) (hl : s.Legible lt a)
    (hs : s.step lt gettid logLevel basename rollSize before a = some s') :
    Logs lt gettid basename rollSize before s' := by
  obtain ⟨hread, hlen, hcalled⟩ := h
  cases a with
  | init t =>
    simp only [step, Option.bind_eq_bind, Option.bind_eq_some_iff] at hs
    obtain ⟨records, hrecords, file, hfile, hs⟩ := hs
    obtain rfl := Option.some.inj hs
    have hinit : s.records.Legible lt (.init t) := trivial
    have hread' := RecordsState.readable_step hread hinit hrecords
    obtain rfl := Option.some.inj hrecords
    have hworks : (.log .start : FileLabel n).Works := trivial
    have hcalled' := hcalled.step hworks hfile
    rw [show (logLabel (.log .start : FileLabel n)).call = [] from rfl, List.append_nil] at hcalled'
    exact ⟨hread', hlen, hcalled'⟩
  | tid t =>
    obtain rfl := Option.some.inj hs
    exact ⟨hread.tid_call t, hlen, hcalled⟩
  | log t now data st =>
    simp only [step] at hs
    split at hs
    · simp only [Option.bind_eq_bind, Option.bind_eq_some_iff, Prod.exists] at hs
      obtain ⟨records, hrecords, c, stream_, hw, o, hd, hs⟩ := hs
      have hlegible : s.records.Legible lt (.log t now data st) := hl
      have hread' := RecordsState.readable_step hread hlegible hrecords
      obtain ⟨c', stream', hw', hcases⟩ := RecordsState.log_inv hlegible hrecords
      obtain ⟨rfl, rfl⟩ := Prod.mk.inj (Option.some.inj (hw'.symm.trans hw))
      rcases hcases with ⟨hd', hlogged⟩ | ⟨hd', hlogged, hle⟩
      · obtain rfl := Option.some.inj (hd'.symm.trans hd)
        obtain rfl := Option.some.inj hs
        exact ⟨hread', by rwa [hlogged], by rwa [hlogged]⟩
      · obtain rfl := Option.some.inj (hd'.symm.trans hd)
        simp only [Option.bind_eq_some_iff] at hs
        obtain ⟨records', htid, file, hfile, hs⟩ := hs
        obtain rfl := Option.some.inj hs
        obtain rfl := Option.some.inj htid
        refine ⟨hread'.tid_call t, ?_, ?_⟩
        · rw [hlogged, List.forall_mem_append]
          exact ⟨hlen, List.forall_mem_singleton.2 hle⟩
        · rw [hlogged, List.map_append]
          have hworks : (.log (.append (gettid t).val (.ofRecord (LoggedStatement.record ⟨t, now, stream', st⟩))) : FileLabel n).Works :=
            trivial
          exact hcalled.step hworks hfile
    · cases hs
  | file a =>
    obtain ⟨hfile, hrecords, hcall⟩ := file_inv hs
    have hcalled' := hcalled.step hl hfile
    rw [hcall, List.append_nil, ← hrecords] at hcalled'
    exact ⟨hrecords ▸ hread, hrecords ▸ hlen, hcalled'⟩

/-! ## Reading what was written -/

/-- What a line given to `append` says. -/
def said (l : Line) : List Fields := (readLog l.bytes).reduceOption

/-- A call of `append` for a statement that fits is one line, and says which thread it is from. -/
def Speaks (call : Nat × Line) : Prop :=
  Lines call.2.bytes ∧ ∃ fields : Fields, readLog call.2.bytes = [some fields] ∧ fields.tid = call.1

omit [DecidableEq τ] in
theorem Logs.call_bytes (h : Logs lt gettid basename rollSize before s) {e : LoggedStatement τ}
    (he : e ∈ s.records.logged) : Lines (e.call gettid).2.bytes ∧
      readLog (e.call gettid).2.bytes = [some (e.fields lt gettid)] := by
  have hbytes : (e.call gettid).2.bytes = e.record := Line.ofRecord_bytes (h.length e he)
  rw [hbytes, ← h.readable.line e he]
  exact lines_singleton (h.readable.newline e he)

omit [DecidableEq τ] in
theorem Logs.speaks (h : Logs lt gettid basename rollSize before s) :
    ∀ call ∈ s.records.logged.map (·.call gettid), Speaks call := by
  rw [List.forall_mem_map]
  intro e he
  obtain ⟨hlines, hread⟩ := h.call_bytes he
  exact ⟨hlines, _, hread, rfl⟩

omit [DecidableEq τ] in
theorem Logs.said_calls (h : Logs lt gettid basename rollSize before s) :
    (s.records.logged.map (·.call gettid)).flatMap (fun call => said call.2) =
      s.records.logged.map (·.fields lt gettid) := by
  rw [List.flatMap_map, List.map_eq_flatMap]
  refine List.flatMap_congr fun e he => ?_
  rw [said, (h.call_bytes he).2]
  rfl

/-- The fields that name a tid are those of its lines. -/
theorem said_ofThread {calls : List (Nat × Line)} (h : ∀ call ∈ calls, Speaks call) (tid : Nat) :
    (calls.flatMap fun call => said call.2).filter (·.tid = tid) = (ofThread tid calls).flatMap said := by
  induction calls with
  | nil => rfl
  | cons call calls ih =>
    obtain ⟨⟨-, fields, hread, htid⟩, hcalls⟩ := List.forall_mem_cons.1 h
    have hsaid : said call.2 = [fields] := by
      rw [said, hread]
      rfl
    rw [List.flatMap_cons, List.filter_append, ih hcalls, hsaid]
    by_cases heq : call.1 = tid
    · simp [ofThread, heq, htid, hsaid]
    · simp [ofThread, heq, htid]

omit [NeZero n] in
/-- The notices apart, what was written says what its buffers say. -/
theorem readLog_output {output : List FileAppend} {written : List (LogBuffer n)}
    (hb : output.filterMap FileAppend.buffer? = written.map (·.buffer.contents))
    (hnotice : ∀ now count, .notice now count ∈ output → Lines (FileAppend.notice now count).bytes ∧
      readLog (FileAppend.notice now count).bytes = [none])
    (hbuf : ∀ buf ∈ written, Lines buf.buffer.contents ∧ none ∉ readLog buf.buffer.contents) :
    (readLog (output.flatMap FileAppend.bytes)).reduceOption =
        written.flatMap (fun buf => (readLog buf.buffer.contents).reduceOption) ∧
      (readLog (output.flatMap FileAppend.bytes)).countP (·.isNone) = output.countP (·.buffer?.isNone) := by
  induction output generalizing written with
  | nil =>
    obtain rfl := List.map_eq_nil_iff.1 hb.symm
    exact ⟨rfl, rfl⟩
  | cons x output ih =>
    have hnotice' := fun now count hm => hnotice now count (List.mem_cons_of_mem _ hm)
    cases x with
    | notice now count =>
      obtain ⟨hlines, hread⟩ := hnotice now count List.mem_cons_self
      obtain ⟨hsaid, hcount⟩ := ih hb hnotice' hbuf
      rw [List.flatMap_cons, hlines, hread, ← hsaid]
      refine ⟨rfl, ?_⟩
      rw [List.singleton_append, List.countP_cons, hcount, List.countP_cons]
      rfl
    | buffer bytes =>
      rw [List.filterMap_cons_some (show (FileAppend.buffer bytes).buffer? = some bytes from rfl)] at hb
      obtain ⟨buf, rest, rfl, rfl, hrest⟩ := List.map_eq_cons_iff.1 hb.symm
      obtain ⟨⟨hlines, hnone⟩, hbuf'⟩ := List.forall_mem_cons.1 hbuf
      obtain ⟨hsaid, hcount⟩ := ih hrest.symm hnotice' hbuf'
      have hbytes : (FileAppend.buffer buf.buffer.contents).bytes = buf.buffer.contents := rfl
      rw [List.flatMap_cons, hbytes, hlines, List.reduceOption_append, hsaid, List.flatMap_cons]
      refine ⟨rfl, ?_⟩
      rw [List.countP_append, hcount, List.countP_cons, List.countP_eq_zero.2, Nat.zero_add]
      · rfl
      · intro o ho hisNone
        exact hnone (Option.isNone_iff_eq_none.1 hisNone ▸ ho)

/-- What the lines given to the file say. -/
def reads (s : ProgramState τ n) : List (Option Fields) := readLog (s.file.log.output.flatMap FileAppend.bytes)

omit [DecidableEq τ] in
/-- The lines written are calls for statements that fit, in the order of each thread. -/
theorem Logs.exists_lines (h : Logs lt gettid basename rollSize before s) : ∃ lines : List (Nat × Line),
    (∀ call ∈ lines, Speaks call) ∧ lines.map (·.2) = (s.file.log.written.flatMap (·.lines)).map (·.2) ∧
    (∀ tid, (ofThread tid lines).Sublist (ofThread tid (s.records.logged.map (·.call gettid)))) ∧
    ((∀ now count, .notice now count ∉ s.file.log.output) → ∀ tid,
      ofThread tid lines <+: ofThread tid (s.records.logged.map (·.call gettid))) := by
  have hspeaks := h.speaks
  obtain ⟨bs, hr, -, hbs⟩ := h.called
  obtain ⟨lines, heq, hsub, hpre⟩ := AsyncLogging.exists_written (run_log hr)
  rw [List.flatMap_map, hbs] at hsub hpre
  refine ⟨lines, fun call hm => ?_, heq, hsub, hpre⟩
  have hmem : call.2 ∈ ofThread call.1 lines := List.mem_map.2 ⟨call, by simpa using hm, rfl⟩
  obtain ⟨call', hm', heq'⟩ := List.mem_map.1 ((hsub call.1).subset hmem)
  obtain ⟨hm', htid⟩ := List.mem_filter.1 hm'
  exact Prod.ext (of_decide_eq_true htid) heq' ▸ hspeaks call' hm'

omit [NeZero n] in
/-- A written buffer is read line by line. -/
theorem readLog_buffer {buf : LogBuffer n} (hw : buf.Whole) (h : ∀ p ∈ buf.lines, ∃ call, Speaks call ∧ call.2 = p.2) :
    Lines buf.buffer.contents ∧ none ∉ readLog buf.buffer.contents ∧
      (readLog buf.buffer.contents).reduceOption = buf.lines.flatMap fun p => said p.2 := by
  have hlines : ∀ p ∈ buf.lines, Lines p.2.bytes := fun p hp => by
    obtain ⟨call, hs, heq⟩ := h p hp
    exact heq ▸ hs.1
  obtain ⟨hbuf, hread⟩ := lines_flatMap hlines
  rw [hw, hread]
  refine ⟨hbuf, fun hmem => ?_, List.filterMap_flatMap⟩
  obtain ⟨p, hp, hmem⟩ := List.mem_flatMap.1 hmem
  obtain ⟨call, ⟨-, fields, hread, -⟩, heq⟩ := h p hp
  rw [← heq, hread] at hmem
  cases List.mem_singleton.1 hmem

omit [DecidableEq τ] in
/-- What was written says, thread by thread, what was logged. -/
theorem Logs.reads_logged (h : Logs lt gettid basename rollSize before s)
    (hcount : ∀ now count, .notice now count ∈ s.file.log.output → count < 2 ^ 64) :
    s.reads.countP (·.isNone) = s.file.log.output.countP (·.buffer?.isNone) ∧
      (∀ tid, (s.reads.reduceOption.filter (·.tid = tid)).Sublist
        ((s.records.logged.map (·.fields lt gettid)).filter (·.tid = tid))) ∧
      ((∀ now count, .notice now count ∉ s.file.log.output) → ∀ tid,
        s.reads.reduceOption.filter (·.tid = tid) <+: (s.records.logged.map (·.fields lt gettid)).filter (·.tid = tid)) := by
  obtain ⟨lines, hlines, heq, hsub, hpre⟩ := h.exists_lines
  obtain ⟨bs, hr, -, -⟩ := h.called
  have hc := AsyncLogging.conserved ((Lts.System.Reachable.init (M := AsyncLogging n) rfl).run (run_log hr))
  have hbuf : ∀ buf ∈ s.file.log.written, Lines buf.buffer.contents ∧ none ∉ readLog buf.buffer.contents ∧
      (readLog buf.buffer.contents).reduceOption = buf.lines.flatMap fun p => said p.2 := fun buf hb => by
    refine readLog_buffer (written_whole hc buf hb) fun p hp => ?_
    have hm : p.2 ∈ lines.map (·.2) := heq ▸ List.mem_map_of_mem (List.mem_flatMap.2 ⟨buf, hb, hp⟩)
    obtain ⟨call, hm, hcall⟩ := List.mem_map.1 hm
    exact ⟨call, hlines call hm, hcall⟩
  obtain ⟨hsaid, hnotices⟩ := readLog_output hc.filed.buffers (fun now count hm => by
    obtain ⟨t, rfl⟩ := run_notices hr now count hm
    exact lines_notice t (hcount _ _ hm)) fun buf hb => ⟨(hbuf buf hb).1, (hbuf buf hb).2.1⟩
  have hreads : s.reads.reduceOption = lines.flatMap fun call => said call.2 := calc
    _ = s.file.log.written.flatMap fun buf => (readLog buf.buffer.contents).reduceOption := hsaid
    _ = s.file.log.written.flatMap fun buf => buf.lines.flatMap fun p => said p.2 :=
      List.flatMap_congr fun buf hb => (hbuf buf hb).2.2
    _ = ((s.file.log.written.flatMap (·.lines)).map (·.2)).flatMap said := by rw [List.flatMap_map, List.flatMap_assoc]
    _ = lines.flatMap fun call => said call.2 := by rw [← heq, List.flatMap_map]
  refine ⟨hnotices, fun tid => ?_, fun hn tid => ?_⟩
  · rw [hreads, ← h.said_calls, said_ofThread hlines, said_ofThread h.speaks]
    exact (hsub tid).flatMap said
  · rw [hreads, ← h.said_calls, said_ofThread hlines, said_ofThread h.speaks]
    exact (hpre hn tid).flatMap said

end ProgramState

/-! ## Runs -/

/-- The statement of a step whose record is handed over. -/
def ProgramLabel.emits {τ : Type} {n : Nat} (logLevel : LogLevel) : ProgramLabel τ n → Option (τ × Nat × Logger.LogStatement)
  | .log t now data st => (RecordsLabel.log t now data st).emits logLevel
  | _ => none

namespace ProgramState

open Logger LoggingToFile

variable {τ : Type} [DecidableEq τ] {n : Nat} [NeZero n] {lt : LocalTime} {gettid : τ → Tid} {logLevel : LogLevel}
  {basename : Bytes} {rollSize : Nat} {before : Disk} {s s' t : ProgramState τ n}

theorem step_statements {a : ProgramLabel τ n} (hs : s.step lt gettid logLevel basename rollSize before a = some s') :
    s'.records.statements = s.records.statements ++ (a.emits logLevel).toList := by
  cases a with
  | init t =>
    simp only [step, Option.bind_eq_bind, Option.bind_eq_some_iff] at hs
    obtain ⟨records, hrecords, file, -, hs⟩ := hs
    obtain rfl := Option.some.inj hs
    exact RecordsState.step_statements hrecords
  | tid t =>
    obtain rfl := Option.some.inj hs
    exact (List.append_nil _).symm
  | log t now data st =>
    simp only [step] at hs
    split at hs
    · simp only [Option.bind_eq_bind, Option.bind_eq_some_iff, Prod.exists] at hs
      obtain ⟨records, hrecords, c, stream_, -, o, -, hs⟩ := hs
      have hlog := RecordsState.step_statements hrecords
      cases o with
      | some record =>
        simp only [Option.bind_eq_some_iff] at hs
        obtain ⟨records', htid, file, -, hs⟩ := hs
        obtain rfl := Option.some.inj hs
        rw [RecordsState.step_statements htid, hlog]
        exact List.append_nil _
      | none =>
        obtain rfl := Option.some.inj hs
        exact hlog
    · cases hs
  | file a =>
    rw [(file_inv hs).2.1]
    exact (List.append_nil _).symm

/-- From the log statements to the files and back. At any moment the complete lines of
the files are the first of what the back end has given them, all of it between two
rounds and after `stop`. They are the notices and, of each thread, statements it logged,
each with the body that its calls show, each once and in their order: its first ones, if
there is no notice. -/
theorem files_read_back {f : BufferedLogFile} (as : List (ProgramLabel τ n)) (h0 : s.Fresh)
    (hr : (LoggingProgram τ n lt gettid logLevel basename rollSize before).run s as = some t)
    (hl : (LoggingProgram τ n lt gettid logLevel basename rollSize before).Guarded (Legible lt) s as)
    (hf : t.file.output = some f) (hnew : ∀ o ∈ f.opened, before o.filename = [])
    (hcount : ∀ now count, .notice now count ∈ t.file.log.output → count < 2 ^ 64) :
    readLog (f.opened.map fun o => f.disk o.filename).flatten <+: t.reads ∧
      (t.file.log.back.stage = .clean ∨ t.file.log.owner = .stopped →
        readLog (f.opened.map fun o => f.disk o.filename).flatten = t.reads) ∧
      t.reads.countP (·.isNone) = t.file.log.output.countP (·.buffer?.isNone) ∧
      (∀ tid, (t.reads.reduceOption.filter (·.tid = tid)).Sublist
        ((t.records.logged.map (·.fields lt gettid)).filter (·.tid = tid))) ∧
      ((∀ now count, .notice now count ∉ t.file.log.output) → ∀ tid,
        t.reads.reduceOption.filter (·.tid = tid) <+: (t.records.logged.map (·.fields lt gettid)).filter (·.tid = tid)) ∧
      (∀ e ∈ t.records.logged, Shows e.statement.body (e.fields lt gettid).body) ∧
      t.records.logged.map (fun e => (e.thread, e.now, e.statement)) = as.filterMap (·.emits logLevel) := by
  have hall := hl.always (I := Logs lt gettid basename rollSize before) (fun _ _ _ hi hl h => step_logs hi hl h) h0.logs
  have hlogs := hall.last hr
  obtain ⟨bs, hrun, hworks, -⟩ := hlogs.called
  obtain ⟨hreach, hw⟩ := run_writes hworks hrun
  have hkernel := kernel_files hw hf hnew
  obtain ⟨hnotices, hsub, hpre⟩ := hlogs.reads_logged hcount
  refine ⟨?_, fun hend => ?_, hnotices, hsub, hpre, hlogs.readable.shows, ?_⟩
  · rw [reads, ← hkernel]
    exact readLog_prefix (List.prefix_append _ _)
  · have hclean := hend.elim id (stopped_clean hreach)
    rw [reads, ← hkernel, hw.flushed hclean f hf, List.append_nil]
  · have hstatements := Lts.System.run_history (fun _ _ _ => step_statements) hr
    rwa [RecordsState.statements, RecordsState.statements, h0.1.2.2.2, List.map_nil, List.nil_append] at hstatements

/-! ## One statement -/

open HeadersState RecordsState

/-- The rest of `append` in the thread 1000, and a round of the back end. -/
def roundOf : List (FileLabel 1) :=
  List.replicate 3 (.log (.front 1000)) ++ List.replicate 3 (.back fifth) ++ .log .timeout :: List.replicate 23 (.back fifth)

/-- The thread that called `Logger::init` logs a line. -/
def oneStatement : List (ProgramLabel Bool 1) :=
  .init false :: .file (.back fifth) :: .file (.log .owner) ::
    .log false 1569500000000000 (fun _ => 0) shortStatement :: roundOf.map .file

theorem oneStatement_state : ∃ t f, (LoggingProgram Bool 1 digitsTime twoTids .INFO [97] 9 fun _ => []).run
    ⟨freshRecords, .create, none⟩ oneStatement = some t ∧ t.file.output = some f ∧ t.file.log.back.stage = .clean ∧
    t.file.log.output.all (·.buffer?.isSome) ∧ t.reads.length = 1 := by
  have h : ((LoggingProgram Bool 1 digitsTime twoTids .INFO [97] 9 fun _ => []).run
      ⟨freshRecords, .create, none⟩ oneStatement).map (fun t => (t.file.output.isSome, t.file.log.back.stage,
        t.file.log.output.all (·.buffer?.isSome), t.reads.length)) = some (true, .clean, true, 1) := by
    decide +kernel
  obtain ⟨t, ht, hv⟩ := Option.map_eq_some_iff.1 h
  simp only [Prod.mk.injEq] at hv
  obtain ⟨ho, hst, hn, hlen⟩ := hv
  obtain ⟨f, hf⟩ := Option.isSome_iff_exists.1 ho
  exact ⟨t, f, ht, hf, hst, hn, hlen⟩

theorem roundOf_works : ∀ a ∈ roundOf, a.Works := by
  have hlabel : ∀ a ∈ roundOf, a = .back fifth ∨ ∃ b, a = .log b := by
    simp [roundOf]
  intro a ha
  rcases hlabel a ha with rfl | ⟨b, rfl⟩
  · exact fifth_works
  · trivial

theorem files_read_back_short : ∃ t f, (LoggingProgram Bool 1 digitsTime twoTids .INFO [97] 9 fun _ => []).run
    ⟨freshRecords, .create, none⟩ oneStatement = some t ∧ t.file.output = some f ∧
    readLog (f.opened.map fun o => f.disk o.filename).flatten = t.reads ∧ t.reads.length = 1 ∧
    t.records.logged.map (fun e => (e.thread, e.now, e.statement)) = [(false, 1569500000000000, shortStatement)] := by
  obtain ⟨t, f, ht, hf, hst, hn, hlen⟩ := oneStatement_state
  have h0 : (⟨freshRecords, .create, none⟩ : ProgramState Bool 1).Fresh := ⟨⟨fun _ => rfl, rfl, rfl, rfl⟩, rfl⟩
  have hnone := AsyncLogging.no_notice hn
  have hl : (LoggingProgram Bool 1 digitsTime twoTids .INFO [97] 9 fun _ => []).Guarded (Legible digitsTime)
      ⟨freshRecords, .create, none⟩ oneStatement := by
    refine .of_step rfl trivial (.of_step rfl fifth_works (.of_step rfl trivial ⟨short_legible rfl, fun _ _ => ?_⟩))
    exact .of_labels (List.forall_mem_map.2 fun a ha _ => roundOf_works a ha)
  have h := files_read_back _ h0 ht hl hf (fun _ _ => rfl) fun now count hm => absurd hm (hnone now count)
  exact ⟨t, f, ht, hf, h.2.1 (.inl hst), hlen, h.2.2.2.2.2.2⟩

end ProgramState

end Ycnt

import Mathlib.Data.FinEnum
import Ycnt.Base.Timestamp
import Ycnt.Base.File.Buffered
import Ycnt.Base.AsyncLogging.Order
/-!
# The asynchronous logger and its files

`AsyncLogging::threadFunc` with the `LogFile output` that it writes to: the buffers
and the notices of `AsyncLogging` become calls on a log file, and the log file's
bytes reach the kernel. What the back end asks the system for in a step is in the
label: the clocks, the results of `fwrite_unlocked`, what `rollFile` is told.

The lines on the disk are then traced back to the calls of `append`, bucket by
bucket and thread by thread.
-/

namespace Ycnt

open Function Numeral

variable {n : Nat}

/-! ## The back end with its file -/

/-- A text of bytes as a `String`. -/
def asString (text : Bytes) : String := String.ofList (text.map fun c => Char.ofNat c.toNat)

/-- "Dropped log messages at %s, %zd larger buffers\n" -/
def noticeText (now : Bytes) (count : Nat) : Bytes :=
  ['D', 'r', 'o', 'p', 'p', 'e', 'd', ' ', 'l', 'o', 'g', ' ', 'm', 'e', 's', 's', 'a', 'g', 'e', 's', ' ', 'a', 't',
    ' '].map Char.toUInt8 ++ now ++ [',', ' '].map Char.toUInt8 ++ ofNat count ++
    [' ', 'l', 'a', 'r', 'g', 'e', 'r', ' ', 'b', 'u', 'f', 'f', 'e', 'r', 's', '\n'].map Char.toUInt8

/-- What a call of `LogFile::append` is given; a notice stands in the 256 bytes of `buf`. -/
def FileAppend.bytes : FileAppend → Bytes
  | .notice now count => Timestamp.stored 256 (noticeText (now.toList.map Char.toUInt8) count)
  | .buffer bytes => bytes

structure FileState (n : Nat) where
  log : AsyncState n
  /-- `output` of `threadFunc`, once it is constructed. -/
  output : Option BufferedLogFile

/-- What the back end is told in a step. -/
structure BackAnswers where
  /-- `Timestamp::now()` -/
  now : Timestamp
  fwrite : Nat → Fwrite
  time : Int
  roll : Answers

inductive FileLabel (n : Nat) where
  /-- A step of another thread than the back end. -/
  | log (a : LogLabel n)
  | back (answers : BackAnswers)

namespace FileState

variable (s : FileState n)

def appendOutput (logline : Bytes) (a : BackAnswers) : Option (Option BufferedLogFile) :=
  (s.output.bind (·.append ⟨logline, a.fwrite, a.time, a.roll⟩)).map some

/-- What the step of the back end does to `output`. The `flushInterval` and
`checkEveryN` of `LogFile` have their default values. -/
def backOutput (basename : Bytes) (rollSize : Nat) (before : Disk) (a : BackAnswers) : Option (Option BufferedLogFile) :=
  match s.log.back with
  | .begin => (BufferedLogFile.create basename rollSize 3 1024 before a.roll).map some
  | .dropTest =>
    if s.log.backBuffers.length > 25 then
      s.appendOutput (Timestamp.stored 256 (noticeText (a.now.toFormattedString true) (s.log.backBuffers.length - 2))) a
    else some s.output
  | .write k =>
    match s.log.backBuffers[k]? with
    | some buf => s.appendOutput buf.buffer.contents a
    | none => some s.output
  | .flush | .finalFlush => (s.output.bind (·.flush)).map some
  | _ => some s.output

def step [NeZero n] (basename : Bytes) (rollSize : Nat) (before : Disk) : FileLabel n → Option (FileState n)
  | .log (.back _) => none
  | .log a => (s.log.step a).map fun log => { s with log }
  | .back a => do
    let log ← s.log.backStep (asString (a.now.toFormattedString true))
    let output ← s.backOutput basename rollSize before a
    some ⟨log, output⟩

end FileState

/-- A logger with `n` buckets and the files of one process, which hold `before`. -/
def LoggingToFile (n : Nat) [NeZero n] (basename : Bytes) (rollSize : Nat) (before : Disk) :
    Lts.System (FileState n) (FileLabel n) where
  init s := s = ⟨.create, none⟩
  step s a := s.step basename rollSize before a

/-! ## The notice -/

theorem asString_bytes (text : Bytes) : (asString text).toList.map Char.toUInt8 = text := by
  have hbyte : ∀ c : UInt8, (Char.ofNat c.toNat).toUInt8 = c := by decide +kernel
  rw [asString, String.toList_ofList, List.map_map]
  conv_rhs => rw [← List.map_id text]
  exact List.map_congr_left fun c _ => hbyte c

/-- The notice is whole: `buf` is long enough for every `size_t`. -/
theorem notice_bytes (now : Timestamp) {count : Nat} (h : count < 2 ^ 64) :
    (FileAppend.notice (asString (now.toFormattedString true)) count).bytes =
      noticeText (now.toFormattedString true) count := by
  have hcount := ofNat_length_le (k := 20) (by decide) (h.trans (by decide))
  have hnow : (now.toFormattedString true).length ≤ 28 := by
    have hcalendar := now.calendarText_length
    have hmicro := now.microsecondsText_length
    rw [now.toFormattedString_eq, Timestamp.formattedText, if_pos rfl, List.length_append, List.length_cons]
    omega
  rw [FileAppend.bytes, asString_bytes]
  refine List.take_of_length_le ?_
  simp only [noticeText, List.length_append, List.length_map, List.length_cons, List.length_nil]
  omega

/-! ## The calls on the file -/

/-- What has become of the bytes that the back end has given to `output`. -/
inductive BackPc.Stage where
  /-- There is no `output` yet. -/
  | unopened
  /-- All are flushed. -/
  | clean
  | dirty
  deriving DecidableEq

def BackPc.stage : BackPc n → BackPc.Stage
  | .notStarted | .begin => .unopened
  | .write _ | .recycle | .lockSize _ | .sizeTest _ | .lockPush _ | .push _ | .flush => .dirty
  | _ => .clean

@[simp] theorem BackPc.notified_stage (pc : BackPc n) : pc.notified.stage = pc.stage := by
  cases pc <;> rfl

/-- The stage after a step of the back end. -/
def BackPc.nextStage : BackPc n → BackPc.Stage
  | .begin | .flush => .clean
  | .dropTest => .dirty
  | pc => pc.stage

namespace AsyncState

variable {s s' : AsyncState n} {now : String}

/-- What the next step of the back end appends to the file. -/
def calls (s : AsyncState n) (now : String) : List FileAppend :=
  match s.back with
  | .dropTest => if s.backBuffers.length > 25 then [.notice now (s.backBuffers.length - 2)] else []
  | .write k => (s.backBuffers[k]?).toList.map fun buf => .buffer buf.buffer.contents
  | _ => []

theorem backStep_calls (hs : s.backStep now = some s') :
    s'.output = s.output ++ s.calls now ∧ s'.back.stage = s.back.nextStage := by
  cases hpc : s.back with
  | notStarted | asleep | exited => simp [backStep, hpc] at hs
  | dropTest =>
    simp only [backStep, hpc, Option.some.injEq] at hs
    subst hs
    refine ⟨?_, rfl⟩
    simp only [calls, hpc, setBack, dropBack]
    split
    · rfl
    · exact (List.append_nil _).symm
  | write k =>
    simp only [backStep, hpc] at hs
    split at hs
    · rename_i hk
      cases hs
      simp [calls, hpc, hk, BackPc.stage, BackPc.nextStage, setBack]
    · rename_i hk
      cases hs
      simp [calls, hpc, hk, BackPc.stage, BackPc.nextStage, setBack]
  | lockWait | woken | lockFront | lockPool | lockSwap | lockSize | lockPush =>
    simp only [backStep, hpc, Option.map_eq_some_iff, lock_eq_some] at hs
    obtain ⟨_, ⟨-, rfl⟩, rfl⟩ := hs
    simp [calls, hpc, BackPc.stage, BackPc.nextStage, setBack]
  | handOver =>
    simp only [backStep, hpc, Option.map_eq_some_iff] at hs
    obtain ⟨_, -, rfl⟩ := hs
    simp [calls, hpc, BackPc.stage, BackPc.nextStage, setBack, emplaceFront]
  | lengthTest b =>
    simp only [backStep, hpc, Option.map_eq_some_iff] at hs
    obtain ⟨_, -, rfl⟩ := hs
    split <;> simp [calls, hpc, BackPc.stage, BackPc.nextStage, setBack]
  | emptyTest | sizeTest =>
    simp only [backStep, hpc, Option.some.injEq] at hs
    subst hs
    split <;> simp [calls, hpc, BackPc.stage, BackPc.nextStage, setBack, unlock]
  | harvest i =>
    simp only [backStep, hpc] at hs
    split at hs
    · simp only [Option.map_eq_some_iff, lock_eq_some] at hs
      obtain ⟨_, ⟨-, rfl⟩, rfl⟩ := hs
      simp [calls, hpc, BackPc.stage, BackPc.nextStage, setBack]
    · cases hs
      simp [calls, hpc, BackPc.stage, BackPc.nextStage, setBack]
  | loopTest =>
    simp only [backStep, hpc] at hs
    split at hs
    · split at hs <;> cases hs
      simp [calls, hpc, BackPc.stage, BackPc.nextStage, setBack]
    · cases hs
      simp [calls, hpc, BackPc.stage, BackPc.nextStage, setBack]
  | begin | recycle =>
    simp only [backStep, hpc] at hs
    split at hs <;> cases hs <;> simp [calls, hpc, BackPc.stage, BackPc.nextStage, setBack]
  | waited | tryPop | refill | unlockNode | swap | push | flush | finalFlush =>
    simp only [backStep, hpc, Option.some.injEq] at hs
    subst hs
    simp [calls, hpc, BackPc.stage, BackPc.nextStage, setBack, unlock]

theorem frontStep_output {tid : Nat} (hs : s.frontStep tid = some s') :
    s'.output = s.output ∧ s'.back.stage = s.back.stage := by
  cases frontStep_inv hs with
  | handOver => exact ⟨rfl, s.back.notified_stage⟩
  | lock | unlock | move | take | store | tryPop | refill => exact ⟨rfl, rfl⟩

theorem ownerStep_output (hs : s.ownerStep = some s') : s'.output = s.output ∧ s'.back.stage = s.back.stage := by
  unfold ownerStep at hs
  split at hs
  all_goals cases hs
  case h_4 => exact ⟨rfl, BackPc.notified_stage _⟩
  all_goals exact ⟨rfl, rfl⟩

/-- The other threads do nothing with the file. -/
theorem step_output [NeZero n] {a : LogLabel n} (hb : s.owner = .constructed → s.back = .notStarted) (ha : ∀ now, a ≠ .back now)
    (hs : s.step a = some s') : s'.output = s.output ∧ s'.back.stage = s.back.stage := by
  cases a with
  | start =>
    simp only [step, Option.ite_none_right_eq_some, Option.some.injEq] at hs
    obtain ⟨ho, rfl⟩ := hs
    rw [hb ho]
    exact ⟨rfl, rfl⟩
  | stop =>
    simp only [step, Option.ite_none_right_eq_some, Option.some.injEq] at hs
    obtain ⟨-, rfl⟩ := hs
    exact ⟨rfl, rfl⟩
  | owner => exact ownerStep_output hs
  | append tid l =>
    simp only [step] at hs
    split at hs
    · cases hs
      exact ⟨rfl, rfl⟩
    · cases hs
  | front tid => exact frontStep_output hs
  | back now => exact absurd rfl (ha now)
  | timeout =>
    simp only [step] at hs
    split at hs
    · rename_i hpc
      cases hs
      rw [hpc]
      exact ⟨rfl, rfl⟩
    · cases hs

end AsyncState

/-! ## The file holds what the logger has written -/

/-- The clock is past the epoch, and the streams take whatever they are given in the end. -/
def FileLabel.Works : FileLabel n → Prop
  | .log _ => True
  | .back a => 0 < a.roll.time ∧ ∀ logline, AppendFile.WritesAll logline fun k => (a.fwrite k).taken

namespace FileState

variable {s s' : FileState n} {basename : Bytes} {rollSize : Nat} {before : Disk}

/-- `output` is open once the back end has begun. It holds what was written, and all
of it is flushed but during the round that writes. -/
structure Writes (basename : Bytes) (before : Disk) (s : FileState n) : Prop where
  opened : s.output = none ↔ s.log.back.stage = .unopened
  unopened : s.output = none → s.log.output = []
  keeps : ∀ f, s.output = some f → LogFile.Keeps basename before (s.log.output.map FileAppend.bytes) f.view
  bound : ∀ f, s.output = some f → f.pending.length ≤ BufferedFile.kBufferSize
  flushed : s.log.back.stage = .clean → ∀ f, s.output = some f → f.pending = []

theorem create_writes : Writes basename before (⟨.create, none⟩ : FileState n) where
  opened := iff_of_true rfl rfl
  unopened _ := rfl
  keeps f hf := by cases hf
  bound f hf := by cases hf
  flushed _ f hf := by cases hf

theorem Writes.log {log : AsyncState n} (h : Writes basename before s) (ho : log.output = s.log.output)
    (hst : log.back.stage = s.log.back.stage) : Writes basename before { s with log } := by
  obtain ⟨hopen, hun, hk, hb, hf⟩ := h
  refine ⟨?_, ?_, ?_, hb, ?_⟩
  · rw [hst]
    exact hopen
  · rw [ho]
    exact hun
  · rw [ho]
    exact hk
  · rw [hst]
    exact hf

theorem Writes.dirty {log : AsyncState n} (h : Writes basename before s) (hopen : s.log.back.stage ≠ .unopened)
    (ho : log.output = s.log.output) (hst : log.back.stage = .dirty) : Writes basename before { s with log } := by
  have hsome : s.output ≠ none := fun hnone => hopen (h.opened.1 hnone)
  refine ⟨by simp [hst, hsome], fun hnone => absurd hnone hsome, ?_, h.bound, by simp [hst]⟩
  rw [ho]
  exact h.keeps

theorem Writes.append {log : AsyncState n} {f f' : BufferedLogFile} {x : FileAppend} {call : BufferedCall}
    (h : Writes basename before s) (hf : s.output = some f) (hf' : f.append call = some f') (hx : x.bytes = call.logline)
    (hw : AppendFile.WritesAll call.logline fun k => (call.fwrite k).taken) (ho : log.output = s.log.output ++ [x])
    (hst : log.back.stage = .dirty) : Writes basename before ⟨log, some f'⟩ := by
  have hwhole : LogFile.Whole (BufferedLabel.append call).view := hw
  constructor
  · simp [hst]
  · simp
  · rintro _ ⟨⟩
    have hk := BufferedLogFile.step_keeps (a := .append call) hwhole (h.keeps f hf) hf'
    rw [ho, List.map_append, List.map_singleton, hx]
    exact hk
  · rintro _ ⟨⟩
    exact (BufferedLogFile.step_pending (a := .append call) hwhole hf').2.1 (h.bound f hf)
  · simp [hst]

theorem Writes.flush {log : AsyncState n} {f f' : BufferedLogFile} (h : Writes basename before s) (hf : s.output = some f)
    (hf' : f.flush = some f') (ho : log.output = s.log.output) (hst : log.back.stage = .clean) :
    Writes basename before ⟨log, some f'⟩ := by
  have hnil := BufferedLogFile.flush_pending hf'
  constructor
  · simp [hst]
  · simp
  · rintro _ ⟨⟩
    have hk := BufferedLogFile.step_keeps (a := .flush) trivial (h.keeps f hf) hf'
    rw [ho]
    simpa [LogFile.appendedBy, BufferedLabel.view] using hk
  · rintro _ ⟨⟩
    rw [hnil]
    exact Nat.zero_le _
  · rintro - _ ⟨⟩
    exact hnil

theorem Writes.create {log : AsyncState n} {f : BufferedLogFile} {a : Answers} (h : Writes basename before s)
    (hs : s.output = none) (hpos : 0 < a.time) (hf : BufferedLogFile.create basename rollSize 3 1024 before a = some f)
    (ho : log.output = s.log.output) (hst : log.back.stage = .clean) : Writes basename before ⟨log, some f⟩ := by
  have hnil : f.pending = [] := (BufferedLogFile.rollFile_pending hf).elim id id
  constructor
  · simp [hst]
  · simp
  · rintro _ ⟨⟩
    rw [ho, h.unopened hs]
    exact LogFile.create_keeps hpos (BufferedLogFile.create_view hf)
  · rintro _ ⟨⟩
    rw [hnil]
    exact Nat.zero_le _
  · rintro - _ ⟨⟩
    exact hnil

/-- A call of `append` on `output`, which is open. -/
theorem appendOutput_inv {logline : Bytes} {a : BackAnswers} {o : Option BufferedLogFile}
    (h : s.appendOutput logline a = some o) :
    ∃ f f', s.output = some f ∧ f.append ⟨logline, a.fwrite, a.time, a.roll⟩ = some f' ∧ o = some f' := by
  obtain ⟨f', h, ho⟩ := Option.map_eq_some_iff.1 h
  obtain ⟨f, hf, hf'⟩ := Option.bind_eq_some_iff.1 h
  exact ⟨f, f', hf, hf', ho.symm⟩

theorem back_writes {a : BackAnswers} (hw : (FileLabel.back a : FileLabel n).Works) (h : Writes basename before s)
    {log : AsyncState n} {o : Option BufferedLogFile} (hlog : s.log.backStep (asString (a.now.toFormattedString true)) = some log)
    (hout : s.backOutput basename rollSize before a = some o) : Writes basename before ⟨log, o⟩ := by
  obtain ⟨hpos, hall⟩ := hw
  obtain ⟨ho, hst⟩ := AsyncState.backStep_calls hlog
  unfold backOutput at hout
  cases hpc : s.log.back with
  | begin =>
    simp only [hpc, Option.map_eq_some_iff] at hout
    obtain ⟨f, hf, rfl⟩ := hout
    have hnone : s.output = none := h.opened.2 (by rw [hpc]; rfl)
    exact h.create hnone hpos hf (by simp [ho, AsyncState.calls, hpc]) (by rw [hst, hpc]; rfl)
  | dropTest =>
    simp only [hpc] at hout
    split at hout
    · rename_i hlt
      obtain ⟨f, f', hf, hf', rfl⟩ := appendOutput_inv hout
      refine h.append (x := .notice (asString (a.now.toFormattedString true)) (s.log.backBuffers.length - 2)) hf hf' ?_
        (hall _) (by simp only [ho, AsyncState.calls, hpc, if_pos hlt]) (by rw [hst, hpc]; rfl)
      rw [FileAppend.bytes, asString_bytes]
    · rename_i hlt
      cases hout
      exact h.dirty (by simp [hpc, BackPc.stage]) (by simp [ho, AsyncState.calls, hpc, hlt]) (by rw [hst, hpc]; rfl)
  | write k =>
    simp only [hpc] at hout
    split at hout
    · rename_i buf hk
      obtain ⟨f, f', hf, hf', rfl⟩ := appendOutput_inv hout
      exact h.append (x := .buffer buf.buffer.contents) hf hf' rfl (hall _) (by simp [ho, AsyncState.calls, hpc, hk]) (by rw [hst, hpc]; rfl)
    · rename_i hk
      cases hout
      exact h.log (by simp [ho, AsyncState.calls, hpc, hk]) (by rw [hst, hpc]; rfl)
  | flush | finalFlush =>
    simp only [hpc, Option.map_eq_some_iff, Option.bind_eq_some_iff] at hout
    obtain ⟨f', ⟨f, hf, hf'⟩, rfl⟩ := hout
    exact h.flush hf hf' (by simp [ho, AsyncState.calls, hpc]) (by rw [hst, hpc]; rfl)
  | _ =>
    simp only [hpc, Option.some.injEq] at hout
    subst hout
    exact h.log (by simp [ho, AsyncState.calls, hpc]) (by rw [hst, hpc]; rfl)

end FileState

namespace LoggingToFile

open FileState

/-- What a step is in a logger without a file. -/
def logLabel : FileLabel n → LogLabel n
  | .log a => a
  | .back a => .back (asString (a.now.toFormattedString true))

variable [NeZero n] {s s' : FileState n} {basename : Bytes} {rollSize : Nat} {before : Disk} {as : List (FileLabel n)}

/-- The logger does not see its file. -/
theorem step_log {a : FileLabel n} (hs : s.step basename rollSize before a = some s') :
    s.log.step (logLabel a) = some s'.log := by
  cases a with
  | log a =>
    cases a with
    | back now => cases hs
    | start | stop | owner | append tid l | front tid | timeout =>
      obtain ⟨log, hlog, rfl⟩ := Option.map_eq_some_iff.1 hs
      exact hlog
  | back a =>
    obtain ⟨log, hlog, hs⟩ := Option.bind_eq_some_iff.1 hs
    obtain ⟨o, -, hs⟩ := Option.bind_eq_some_iff.1 hs
    obtain rfl := Option.some.inj hs
    exact hlog

theorem step_writes {a : FileLabel n} (ha : a.Works) (hb : s.log.owner = .constructed → s.log.back = .notStarted)
    (h : Writes basename before s) (hs : s.step basename rollSize before a = some s') : Writes basename before s' := by
  cases a with
  | log a =>
    cases a with
    | back now => cases hs
    | start | stop | owner | append tid l | front tid | timeout =>
      obtain ⟨log, hlog, rfl⟩ := Option.map_eq_some_iff.1 hs
      obtain ⟨ho, hst⟩ := AsyncState.step_output hb (fun _ h => by cases h) hlog
      exact h.log ho hst
  | back a =>
    obtain ⟨log, hlog, hs⟩ := Option.bind_eq_some_iff.1 hs
    obtain ⟨o, hout, hs⟩ := Option.bind_eq_some_iff.1 hs
    obtain rfl := Option.some.inj hs
    exact back_writes ha h hlog hout

theorem stopped_clean {log : AsyncState n} (h : (AsyncLogging n).Reachable log) (ho : log.owner = .stopped) :
    log.back.stage = .clean := by
  rw [AsyncLogging.stopped_exited h ho]
  rfl

theorem run_log (hr : (LoggingToFile n basename rollSize before).run s as = some s') :
    (AsyncLogging n).run s.log (as.map logLabel) = some s'.log :=
  Lts.System.run_of_step (fun _ _ _ => step_log) hr

theorem run_writes (ha : ∀ a ∈ as, a.Works) (hr : (LoggingToFile n basename rollSize before).run ⟨.create, none⟩ as = some s) :
    (AsyncLogging n).Reachable s.log ∧ Writes basename before s := by
  have h0 : (AsyncLogging n).init .create := rfl
  refine Lts.System.run_inv_of (I := fun s : FileState n => (AsyncLogging n).Reachable s.log ∧ Writes basename before s)
    (fun s a s' ha hi hs => ?_) ha hr ⟨.init h0, create_writes⟩
  obtain ⟨hreach, hw⟩ := hi
  exact ⟨hreach.step (step_log hs), step_writes ha (AsyncLogging.unstarted hreach) hw hs⟩

omit [NeZero n] in
/-- What the kernel has of the files, and what is missing. -/
theorem kernel_files {f : BufferedLogFile} (h : Writes basename before s) (hf : s.output = some f)
    (hnew : ∀ o ∈ f.opened, before o.filename = []) :
    (f.opened.map fun o => f.disk o.filename).flatten ++ f.pending = s.log.output.flatMap FileAppend.bytes := by
  have hk := h.keeps f hf
  obtain ⟨parts, hparts, hflat⟩ := hk.parts
  rw [← BufferedLogFile.flushed_files hk, List.flatMap_def, ← hflat]
  exact LogFile.flatten_of_holds hparts hnew

/-- The whole way from the buffers to the disk: what the logger writes, buffer by
buffer and notice by notice, stands in the files in the order of their opening, no
buffer and no notice in two of them. The kernel has it all but for the end, at most the
buffer of a stream; nothing is missing between two rounds, nor after `stop`. -/
theorem files_hold {f : BufferedLogFile} (ha : ∀ a ∈ as, a.Works)
    (hr : (LoggingToFile n basename rollSize before).run ⟨.create, none⟩ as = some s) (hf : s.output = some f)
    (hnew : ∀ o ∈ f.opened, before o.filename = []) :
    (∃ parts, List.Forall₂ (LogFile.Holds before f.flushed) f.opened parts ∧
      parts.flatten = s.log.output.map FileAppend.bytes) ∧
    ∃ lost, (f.opened.map fun o => f.disk o.filename).flatten ++ lost = s.log.output.flatMap FileAppend.bytes ∧
      lost.length ≤ BufferedFile.kBufferSize ∧ (s.log.back.stage = .clean → lost = []) ∧
      (s.log.owner = .stopped → lost = []) := by
  obtain ⟨hreach, hw⟩ := run_writes ha hr
  exact ⟨(hw.keeps f hf).parts, f.pending, kernel_files hw hf hnew, hw.bound f hf, fun hst => hw.flushed hst f hf,
    fun ho => hw.flushed (stopped_clean hreach ho) f hf⟩

omit [NeZero n] in
theorem written_whole {log : AsyncState n} (hc : log.Conserved) : ∀ buf ∈ log.written, buf.Whole := fun buf hm =>
  hc.stored.handed_whole buf (by rw [hc.queue]; simp [hc.filed.order.subset hm])

omit [NeZero n] in
/-- The bytes of the buffers written are those of their lines. -/
theorem written_bytes {log : AsyncState n} (hc : log.Conserved) :
    (log.output.filterMap FileAppend.buffer?).flatten = ((log.written.flatMap (·.lines)).map (·.2)).flatMap Line.bytes := by
  rw [hc.filed.buffers, List.flatMap_map, List.flatMap_assoc, ← List.flatMap_def]
  exact List.flatMap_congr (written_whole hc)

/-- Without notices, buffers are all there is. -/
theorem flatMap_bytes {output : List FileAppend} (hn : ∀ now count, .notice now count ∉ output) :
    output.flatMap FileAppend.bytes = (output.filterMap FileAppend.buffer?).flatten := by
  induction output with
  | nil => rfl
  | cons x output ih =>
    cases x with
    | notice now count => exact absurd List.mem_cons_self (hn now count)
    | buffer bytes =>
      have hrest := ih fun now count hm => hn now count (List.mem_cons_of_mem _ hm)
      rw [List.flatMap_cons, hrest]
      rfl

/-- What the kernel has of the files are the notices and the buffers written, less the
end, where a line may be cut off. The buffers are whole lines, and those of each thread
are some of its lines in the order of its calls of `append`: the first ones, if no
notice was written. -/
theorem disk_in_order {f : BufferedLogFile} (ha : ∀ a ∈ as, a.Works)
    (hr : (LoggingToFile n basename rollSize before).run ⟨.create, none⟩ as = some s) (hf : s.output = some f)
    (hnew : ∀ o ∈ f.opened, before o.filename = []) :
    ∃ (lost : Bytes) (lines : List (Nat × Line)),
      (f.opened.map fun o => f.disk o.filename).flatten ++ lost = s.log.output.flatMap FileAppend.bytes ∧
      lost.length ≤ BufferedFile.kBufferSize ∧
      (s.log.back.stage = .clean ∨ s.log.owner = .stopped → lost = []) ∧
      (s.log.output.filterMap FileAppend.buffer?).flatten = lines.flatMap (·.2.bytes) ∧
      (∀ tid, (ofThread tid lines).Sublist (ofThread tid (as.flatMap fun a => (logLabel a).call))) ∧
      ((∀ now count, .notice now count ∉ s.log.output) →
        (f.opened.map fun o => f.disk o.filename).flatten ++ lost = lines.flatMap (·.2.bytes) ∧
        ∀ tid, ofThread tid lines <+: ofThread tid (as.flatMap fun a => (logLabel a).call)) := by
  obtain ⟨hreach, hw⟩ := run_writes ha hr
  have hkernel := kernel_files hw hf hnew
  obtain ⟨lines, heq, hsub, hpre⟩ := AsyncLogging.exists_written (run_log hr)
  rw [List.flatMap_map] at hsub hpre
  have hbytes := written_bytes (AsyncLogging.conserved hreach)
  rw [← heq, List.flatMap_map] at hbytes
  refine ⟨f.pending, lines, hkernel, hw.bound f hf, fun hend => hw.flushed ?_ f hf, hbytes, hsub, fun hn => ⟨?_, hpre hn⟩⟩
  · exact hend.elim id (stopped_clean hreach)
  · rw [hkernel, ← hbytes, flatMap_bytes hn]

/-! ## One line -/

/-- The second is 5, and a stream takes a byte at a time and gives it to the kernel at the flush. -/
def fifth : BackAnswers := ⟨⟨5000000, by decide⟩, fun _ => ⟨1, 0⟩, 5, ⟨5, none, 1, true⟩⟩

/-- Thread 0 appends two bytes, and the back end makes a round. -/
def oneRound : List (FileLabel 1) :=
  [.log .start, .back fifth, .log .owner, .log (.append 0 (AsyncLogging.blanks 2 (by decide)))] ++
    List.replicate 3 (.log (.front 0)) ++ List.replicate 3 (.back fifth) ++ .log .timeout :: List.replicate 23 (.back fifth)

theorem fifth_works : (FileLabel.back fifth : FileLabel 1).Works :=
  ⟨by decide, fun _ => AppendFile.writesAll_of_pos fun _ => Nat.one_pos⟩

theorem oneRound_works : ∀ a ∈ oneRound, a.Works := by
  have hlabel : ∀ a ∈ oneRound, a = .back fifth ∨ ∃ b, a = .log b := by
    simp [oneRound]
  intro a ha
  rcases hlabel a ha with rfl | ⟨b, rfl⟩
  · exact fifth_works
  · trivial

theorem oneRound_state : ∃ s f, (LoggingToFile 1 [97] 9 fun _ => []).run ⟨.create, none⟩ oneRound = some s ∧
    s.output = some f ∧ s.log.output.flatMap FileAppend.bytes = [32, 32] ∧ s.log.back.stage = .clean ∧
    s.log.output.all (·.buffer?.isSome) := by
  have h : ((LoggingToFile 1 [97] 9 fun _ => []).run ⟨.create, none⟩ oneRound).map (fun s => (s.output.isSome,
      s.log.output.flatMap FileAppend.bytes, s.log.back.stage, s.log.output.all (·.buffer?.isSome))) =
        some (true, [32, 32], .clean, true) := by decide +kernel
  obtain ⟨s, hs, hv⟩ := Option.map_eq_some_iff.1 h
  simp only [Prod.mk.injEq] at hv
  obtain ⟨ho, hout, hst, hn⟩ := hv
  obtain ⟨f, hf⟩ := Option.isSome_iff_exists.1 ho
  exact ⟨s, f, hs, hf, hout, hst, hn⟩

theorem files_hold_round : ∃ s f, (LoggingToFile 1 [97] 9 fun _ => []).run ⟨.create, none⟩ oneRound = some s ∧
    s.output = some f ∧ (f.opened.map fun o => f.disk o.filename).flatten = [32, 32] := by
  obtain ⟨s, f, hs, hf, hout, hst, -⟩ := oneRound_state
  obtain ⟨-, lost, hlost, -, hclean, -⟩ := files_hold oneRound_works hs hf fun _ _ => rfl
  rw [hclean hst, List.append_nil, hout] at hlost
  exact ⟨s, f, hs, hf, hlost⟩

theorem disk_in_order_round : ∃ s f, (LoggingToFile 1 [97] 9 fun _ => []).run ⟨.create, none⟩ oneRound = some s ∧
    s.output = some f ∧ ∃ lines : List (Nat × Line),
      (f.opened.map fun o => f.disk o.filename).flatten = lines.flatMap (·.2.bytes) ∧
      ∀ tid, ofThread tid lines <+: ofThread tid (oneRound.flatMap fun a => (logLabel a).call) := by
  obtain ⟨s, f, hs, hf, -, hst, hn⟩ := oneRound_state
  obtain ⟨lost, lines, -, -, hclean, -, -, hlines⟩ := disk_in_order oneRound_works hs hf fun _ _ => rfl
  obtain ⟨hdisk, hpre⟩ := hlines (AsyncLogging.no_notice hn)
  rw [hclean (.inl hst), List.append_nil] at hdisk
  exact ⟨s, f, hs, hf, lines, hdisk, hpre⟩

end LoggingToFile

end Ycnt

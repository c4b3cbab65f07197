import Ycnt.Base.File
/-!
# Log files behind the buffers of their streams

`File.cpp` once more, with what `stdio` keeps back. `fwrite_unlocked` puts bytes into
the `buffer_` of an `AppendFile`, which `setbuffer` has given to the stream, and the
stream gives bytes to the kernel when it likes, at the latest when they do not fit;
`fflush` and `fclose` give all of them. The kernel takes what it is given.

`disk` is what the kernel has. Seen with its buffer written out (`view`), such a log
file is a `LogFile`, step by step (`step_view`).
-/

namespace Ycnt

open Function Total

/-- A call of `fwrite_unlocked`: the bytes it takes, and the bytes that the stream
gives to the kernel meanwhile. -/
structure Fwrite where
  taken : Nat
  given : Nat

structure BufferedFile where
  filename : Bytes
  writtenBytes : Nat
  /-- What the stream has taken and not given to the kernel. -/
  pending : Bytes

namespace BufferedFile

/-- `sizeof(buffer_)` -/
def kBufferSize : Nat := 64 * 1024

/-- The constructor. The kernel has nothing to write yet. -/
def create (filename : Bytes) (fopen : Bool) : Option BufferedFile :=
  if fopen then some ⟨filename, 0, []⟩ else none

variable (file : BufferedFile) (disk : Disk) (logline : Bytes)

/-- The stream gives `n` bytes to the kernel, more if the others do not fit into its buffer. -/
def give (n : Nat) : BufferedFile × Disk :=
  let n := max n (file.pending.length - kBufferSize)
  ({ file with pending := file.pending.drop n },
    update disk file.filename (disk file.filename ++ file.pending.take n))

def flush : BufferedFile × Disk := file.give disk file.pending.length

/-- The destructor, with its `fclose`. -/
def close : Disk := (file.flush disk).2

def write (fwrite : Fwrite) : Nat × BufferedFile × Disk :=
  (min fwrite.taken logline.length,
    give { file with pending := file.pending ++ logline.take fwrite.taken } disk fwrite.given)

/-- One turn of the loop in `append`: `n` bytes are written, by `k` calls. -/
def appendTurn (fwrite : Nat → Fwrite) :
    Nat × Nat × BufferedFile × Disk → Option (Nat × Nat × BufferedFile × Disk ⊕ BufferedFile × Disk)
  | (k, n, file, disk) =>
    if 0 < logline.length - n then
      let r := file.write disk (logline.drop n) (fwrite k)
      -- The error goes to `stderr`.
      if r.1 = 0 then some (.inr r.2) else some (.inl (k + 1, n + r.1, r.2))
    else some (.inr (file, disk))

def append (fwrite : Nat → Fwrite) : Option (BufferedFile × Disk) := do
  let (n, file, disk) := file.write disk logline (fwrite 0)
  let (file, disk) ← loop (appendTurn logline fwrite) (logline.length + 1) (1, n, file, disk)
  some ({ file with writtenBytes := (file.writtenBytes + logline.length) % 2 ^ 64 }, disk)

/-! ## The file with its buffer written out -/

def view : AppendFile := ⟨file.filename, file.writtenBytes⟩

def flushed : Disk := update disk file.filename (disk file.filename ++ file.pending)

variable {file disk logline}

theorem give_flushed (n : Nat) : (file.give disk n).1.flushed (file.give disk n).2 = file.flushed disk := by
  simp only [give, flushed, update_self, update_idem, List.append_assoc, List.take_append_drop]

theorem close_eq (file : BufferedFile) (disk : Disk) : file.close disk = file.flushed disk := by
  simp only [close, flush, give, flushed, Nat.max_eq_left (Nat.sub_le _ _), List.take_length]

theorem give_view (n : Nat) : (file.give disk n).1.view = file.view := rfl

theorem write_view (file : BufferedFile) (disk : Disk) (logline : Bytes) (fwrite : Fwrite) : let r := file.write disk logline fwrite
    r.2.1.view = file.view ∧ (r.1, r.2.1.flushed r.2.2) = file.view.write (file.flushed disk) logline fwrite.taken := by
  refine ⟨rfl, ?_⟩
  simp only [write]
  rw [give_flushed]
  simp only [AppendFile.write, view, flushed, update_self, update_idem, List.append_assoc]

/-- What the loop in `append` sees of its state, with the buffer written out. -/
def turnView (s : Nat × Nat × BufferedFile × Disk) : Nat × Nat × Disk := (s.1, s.2.1, s.2.2.1.flushed s.2.2.2)

def doneView (r : BufferedFile × Disk) : Disk := r.1.flushed r.2

theorem appendTurn_view {fwrite : Nat → Fwrite} {v : AppendFile} {s : Nat × Nat × BufferedFile × Disk}
    (hv : s.2.2.1.view = v) :
    (appendTurn logline fwrite s).map (Sum.map turnView doneView) =
      v.appendTurn logline (fun k => (fwrite k).taken) (turnView s) := by
  obtain ⟨k, n, file, disk⟩ := s
  obtain rfl : file.view = v := hv
  obtain ⟨-, hw⟩ := write_view file disk (logline.drop n) (fwrite k)
  simp only [appendTurn, AppendFile.appendTurn, turnView, ← hw]
  split
  · split
    · rfl
    · rfl
  · rfl

/-- The stream changes, its file and the counter do not. -/
theorem appendTurn_same {fwrite : Nat → Fwrite} {v : AppendFile} {s : Nat × Nat × BufferedFile × Disk}
    (hv : s.2.2.1.view = v) :
    Yields (appendTurn logline fwrite s) (Sum.elim (fun s' => s'.2.2.1.view = v) fun r => r.1.view = v) := by
  obtain ⟨k, n, file, disk⟩ := s
  refine yields_ite (fun _ => yields_ite (fun _ => yields_some ?_) fun _ => yields_some ?_) fun _ => yields_some ?_
  · exact hv
  · exact hv
  · exact hv

theorem loop_view (logline : Bytes) (fwrite : Nat → Fwrite) {v : AppendFile} (fuel : Nat) {s : Nat × Nat × BufferedFile × Disk}
    (hv : s.2.2.1.view = v) :
    (loop (appendTurn logline fwrite) fuel s).map doneView =
      loop (v.appendTurn logline fun k => (fwrite k).taken) fuel (turnView s) := by
  refine loop_map (I := fun s => s.2.2.1.view = v) (fun s hs => appendTurn_view hs) (fun s hs => ?_) hv
  intro x hx
  have hsame := appendTurn_same hs x hx
  cases x with
  | inl s' => exact hsame
  | inr r => trivial

/-- With the buffer written out, `append` is that of an unbuffered file. -/
theorem append_view (file : BufferedFile) (disk : Disk) (logline : Bytes) (fwrite : Nat → Fwrite) :
    (file.append disk logline fwrite).map (fun r => (r.1.view, r.1.flushed r.2)) =
      file.view.append (file.flushed disk) logline fun k => (fwrite k).taken := by
  obtain ⟨hv, hw⟩ := write_view file disk logline (fwrite 0)
  have hloop := loop_view logline fwrite (logline.length + 1) (s := (1, file.write disk logline (fwrite 0))) hv
  have hsame : Yields (loop (appendTurn logline fwrite) (logline.length + 1) (1, file.write disk logline (fwrite 0)))
      fun r => r.1.view = file.view := yields_loop (I := fun s => s.2.2.1.view = file.view) (fun s hs => appendTurn_same hs) hv
  simp only [turnView, append, AppendFile.append, Option.bind_eq_bind, ← hw] at hloop ⊢
  rw [← hloop]
  cases hr : loop (appendTurn logline fwrite) (logline.length + 1) (1, file.write disk logline (fwrite 0)) with
  | none => rfl
  | some r =>
    have hview := hsame r hr
    simp only [view, AppendFile.mk.injEq] at hview
    simp only [Option.bind_some, Option.map_some, view, flushed, hview, doneView]

end BufferedFile

/-! ## The rolling file -/

structure BufferedLogFile where
  basename : Bytes
  rollSize : Nat
  flushInterval : Int
  checkEveryN : Int
  count : Int
  startOfPeriod : Int
  lastRoll : Int
  lastFlush : Int
  file : Option BufferedFile
  disk : Disk
  opened : List Opened

structure BufferedCall where
  logline : Bytes
  fwrite : Nat → Fwrite
  time : Int
  roll : Answers

inductive BufferedLabel where
  | append (call : BufferedCall)
  | flush
  | rollFile (answers : Answers)

namespace BufferedLogFile

variable (s : BufferedLogFile)

/-- The destructor of the old file, if there is one. -/
def closed : Disk :=
  match s.file with
  | some file => file.close s.disk
  | none => s.disk

/-- The new file is open before `reset` closes the old one. -/
def rollFile (a : Answers) : Option (BufferedLogFile × Bool) :=
  let filename := getLogFileName s.basename a
  let now := a.time
  if now > s.lastRoll then
    (BufferedFile.create filename a.fopen).map fun file =>
      ({ s with
          lastRoll := now
          lastFlush := now
          startOfPeriod := LogFile.period now
          file := some file
          disk := s.closed
          opened := s.opened ++ [⟨now, filename⟩] }, true)
  else some (s, false)

def create (basename : Bytes) (rollSize : Nat) (flushInterval checkEveryN : Int) (disk : Disk) (a : Answers) :
    Option BufferedLogFile :=
  (rollFile
    { basename, rollSize, flushInterval, checkEveryN
      count := 0
      startOfPeriod := 0
      lastRoll := 0
      lastFlush := 0
      file := none
      disk
      opened := [] } a).map (·.1)

/-- `none` stands for a null `file_`. -/
def flush : Option BufferedLogFile := do
  let file ← s.file
  let (file, disk) := file.flush s.disk
  some { s with file := some file, disk }

/-- What `append` does when the line is in the file. -/
def check (call : BufferedCall) (writtenBytes : Nat) : Option BufferedLogFile :=
  if writtenBytes > s.rollSize then (s.rollFile call.roll).map (·.1)
  else
    let s := { s with count := s.count + 1 }
    if s.count ≥ s.checkEveryN then
      let s := { s with count := 0 }
      let now := call.time
      if LogFile.period now ≠ s.startOfPeriod then (s.rollFile call.roll).map (·.1)
      else if now - s.lastFlush > s.flushInterval then flush { s with lastFlush := now }
      else some s
    else some s

def append (call : BufferedCall) : Option BufferedLogFile := do
  let file ← s.file
  let (file, disk) ← file.append s.disk call.logline call.fwrite
  check { s with file := some file, disk } call file.writtenBytes

def step : BufferedLabel → Option BufferedLogFile
  | .append call => s.append call
  | .flush => s.flush
  | .rollFile a => (s.rollFile a).map (·.1)

end BufferedLogFile

/-- The calls on one `LogFile`, with what its streams do. -/
def BufferedRolling (basename : Bytes) (rollSize : Nat) (flushInterval checkEveryN : Int) :
    Lts.System BufferedLogFile BufferedLabel where
  init s := ∃ disk a, 0 < a.time ∧ BufferedLogFile.create basename rollSize flushInterval checkEveryN disk a = some s
  step s a := s.step a

/-! ## The log file with its buffer written out -/

def BufferedCall.view (call : BufferedCall) : AppendCall :=
  ⟨call.logline, fun k => (call.fwrite k).taken, call.time, call.roll⟩

def BufferedLabel.view : BufferedLabel → LogFileLabel
  | .append call => .append call.view
  | .flush => .flush
  | .rollFile a => .rollFile a

namespace BufferedLogFile

variable (s : BufferedLogFile)

/-- What the streams have not given to the kernel. -/
def pending : Bytes :=
  match s.file with
  | some file => file.pending
  | none => []

def flushed : Disk :=
  match s.file with
  | some file => file.flushed s.disk
  | none => s.disk

def view : LogFile where
  basename := s.basename
  rollSize := s.rollSize
  flushInterval := s.flushInterval
  checkEveryN := s.checkEveryN
  count := s.count
  startOfPeriod := s.startOfPeriod
  lastRoll := s.lastRoll
  lastFlush := s.lastFlush
  file := s.file.map (·.view)
  disk := s.flushed
  opened := s.opened

variable {s}

theorem closed_eq (s : BufferedLogFile) : s.closed = s.flushed := by
  unfold closed flushed
  cases s.file with
  | none => rfl
  | some file => exact file.close_eq s.disk

/-- A stream just opened has nothing to write. -/
theorem created_flushed {filename : Bytes} (disk : Disk) : BufferedFile.flushed ⟨filename, 0, []⟩ disk = disk := by
  simp only [BufferedFile.flushed, List.append_nil, update_eq_self]

theorem rollFile_view (a : Answers) : (s.rollFile a).map (fun r => (r.1.view, r.2)) = s.view.rollFile a := by
  by_cases hlt : a.time > s.lastRoll
  · have hlt' : a.time > s.view.lastRoll := hlt
    simp only [rollFile, LogFile.rollFile, if_pos hlt, if_pos hlt', BufferedFile.create, AppendFile.create]
    split
    · simp only [Option.map_some, view, flushed, created_flushed, closed_eq]
      rfl
    · rfl
  · have hlt' : ¬ a.time > s.view.lastRoll := hlt
    simp only [rollFile, LogFile.rollFile, if_neg hlt, if_neg hlt']
    rfl

theorem rollFile_fst_view (a : Answers) : ((s.rollFile a).map (·.1)).map view = (s.view.rollFile a).map (·.1) := by
  rw [← rollFile_view, Option.map_map, Option.map_map]
  rfl

theorem flush_view (s : BufferedLogFile) : s.flush.map view = s.view.file.map fun _ => s.view := by
  unfold flush view flushed
  cases s.file with
  | none => rfl
  | some file =>
    simp only [Option.bind_eq_bind, Option.bind_some, Option.map_some, BufferedFile.flush, BufferedFile.give_flushed,
      BufferedFile.give_view]

theorem flush_view_of_isSome (hf : s.file.isSome) : s.flush.map view = some s.view := by
  obtain ⟨file, hfile⟩ := Option.isSome_iff_exists.1 hf
  have hfile' : s.view.file = some file.view := by simp [view, hfile]
  rw [flush_view, hfile', Option.map_some]

theorem check_view (call : BufferedCall) (writtenBytes : Nat) (hf : s.file.isSome) :
    (s.check call writtenBytes).map view = s.view.check call.view writtenBytes := by
  by_cases hfull : writtenBytes > s.rollSize
  · have hfull' : writtenBytes > s.view.rollSize := hfull
    rw [check, LogFile.check, if_pos hfull, if_pos hfull']
    exact rollFile_fst_view call.roll
  · have hfull' : ¬ writtenBytes > s.view.rollSize := hfull
    rw [check, LogFile.check, if_neg hfull, if_neg hfull']
    dsimp only
    by_cases hn : s.count + 1 ≥ s.checkEveryN
    · have hn' : s.view.count + 1 ≥ s.view.checkEveryN := hn
      rw [if_pos hn, if_pos hn']
      by_cases hp : LogFile.period call.time ≠ s.startOfPeriod
      · have hp' : LogFile.period call.view.time ≠ s.view.startOfPeriod := hp
        rw [if_pos hp, if_pos hp']
        exact rollFile_fst_view call.roll
      · have hp' : ¬ LogFile.period call.view.time ≠ s.view.startOfPeriod := hp
        rw [if_neg hp, if_neg hp']
        by_cases hflush : call.time - s.lastFlush > s.flushInterval
        · have hflush' : call.view.time - s.view.lastFlush > s.view.flushInterval := hflush
          rw [if_pos hflush, if_pos hflush']
          exact flush_view_of_isSome hf
        · have hflush' : ¬ call.view.time - s.view.lastFlush > s.view.flushInterval := hflush
          rw [if_neg hflush, if_neg hflush']
          rfl
    · have hn' : ¬ s.view.count + 1 ≥ s.view.checkEveryN := hn
      rw [if_neg hn, if_neg hn']
      rfl

theorem append_view (call : BufferedCall) : (s.append call).map view = s.view.append call.view := by
  unfold append LogFile.append
  cases hfile : s.file with
  | none =>
    have hfile' : s.view.file = none := by simp [view, hfile]
    rw [hfile']
    rfl
  | some file =>
    have hfile' : s.view.file = some file.view := by simp [view, hfile]
    have hdisk : s.view.disk = file.flushed s.disk := by simp [view, flushed, hfile]
    have happ := file.append_view s.disk call.logline call.fwrite
    simp only [hfile', Option.bind_eq_bind, Option.bind_some, hdisk]
    rw [BufferedCall.view, ← happ]
    cases file.append s.disk call.logline call.fwrite with
    | none => rfl
    | some r => exact check_view call r.1.writtenBytes rfl

/-- With the buffer written out, a step is a step of the unbuffered log file. -/
theorem step_view (a : BufferedLabel) : (s.step a).map view = s.view.step a.view := by
  cases a with
  | append call => exact append_view call
  | flush => exact s.flush_view
  | rollFile a => exact rollFile_fst_view a

variable {t : BufferedLogFile} {basename : Bytes} {before : Disk} {rollSize : Nat} {flushInterval checkEveryN : Int}

theorem create_view {a : Answers} (h : create basename rollSize flushInterval checkEveryN before a = some s) :
    LogFile.create basename rollSize flushInterval checkEveryN before a = some s.view := by
  have hview := congrArg (Option.map view) h
  rw [create, rollFile_fst_view] at hview
  exact hview

/-- The buffers of the streams are invisible: with its buffers written out, a run is,
step by step, that of a log file that writes every byte at once, and ends with it. -/
theorem run_view (s : BufferedLogFile) (as : List BufferedLabel) :
    ((BufferedRolling basename rollSize flushInterval checkEveryN).run s as).map view =
      (Rolling basename rollSize flushInterval checkEveryN).run s.view (as.map BufferedLabel.view) :=
  Lts.System.run_map (fun _ => step_view) s as

end BufferedLogFile

/-! ## What the kernel has -/

namespace BufferedFile

variable {file : BufferedFile} {disk : Disk} {logline : Bytes} {r : BufferedFile × Disk}

/-- The stream has given some bytes to the kernel, and all but a buffer of them. -/
structure Gave (file : BufferedFile) (disk : Disk) (r : BufferedFile × Disk) : Prop where
  filename : r.1.filename = file.filename
  disk : ∃ given, r.2 = update disk file.filename (disk file.filename ++ given)
  bound : r.1.pending.length ≤ kBufferSize

theorem give_gave (file : BufferedFile) (disk : Disk) (n : Nat) : Gave file disk (file.give disk n) := by
  refine ⟨rfl, ⟨_, rfl⟩, ?_⟩
  simp only [give, List.length_drop]
  omega

theorem Gave.trans {r' : BufferedFile × Disk} (h : Gave file disk r) (h' : Gave r.1 r.2 r') : Gave file disk r' := by
  obtain ⟨given, hgiven⟩ := h.disk
  obtain ⟨given', hgiven'⟩ := h'.disk
  refine ⟨h'.filename.trans h.filename, ⟨given ++ given', ?_⟩, h'.bound⟩
  rw [hgiven', hgiven, h.filename, update_self, update_idem, List.append_assoc]

theorem write_gave (fwrite : Fwrite) : Gave file disk (file.write disk logline fwrite).2 := by
  have hgave := give_gave ⟨file.filename, file.writtenBytes, file.pending ++ logline.take fwrite.taken⟩ disk fwrite.given
  exact ⟨rfl, hgave.disk, hgave.bound⟩

theorem append_gave {fwrite : Nat → Fwrite} (h : file.append disk logline fwrite = some r) : Gave file disk r := by
  obtain ⟨r', hr, h⟩ := Option.bind_eq_some_iff.1 h
  obtain rfl := Option.some.inj h
  have hloop : Yields (loop (appendTurn logline fwrite) (logline.length + 1) (1, file.write disk logline (fwrite 0)))
      (Gave file disk) := by
    refine yields_loop (I := fun s => Gave file disk s.2.2) (fun s hs => ?_) (write_gave _)
    obtain ⟨k, n, file', disk'⟩ := s
    refine yields_ite (fun _ => yields_ite (fun _ => yields_some ?_) fun _ => yields_some ?_) fun _ => yields_some ?_
    · exact hs.trans (write_gave _)
    · exact hs.trans (write_gave _)
    · exact hs
  obtain ⟨hname, hdisk, hbound⟩ := hloop r' hr
  exact ⟨hname, hdisk, hbound⟩

/-- What a stream keeps back is the end of what it has been given. -/
theorem append_pending {fwrite : Nat → Fwrite} (hw : AppendFile.WritesAll logline fun k => (fwrite k).taken)
    (h : file.append disk logline fwrite = some r) : r.1.pending <:+ file.pending ++ logline := by
  obtain ⟨hname, ⟨given, hgiven⟩, -⟩ := append_gave h
  obtain ⟨file', heq⟩ := hw file.view (file.flushed disk)
  have hview := append_view file disk logline fwrite
  rw [h, heq, Option.map_some, Option.some.injEq, Prod.mk.injEq] at hview
  have hfile := congrFun hview.2 file.filename
  simp only [flushed, hname, hgiven, view, update_self, List.append_assoc, List.append_cancel_left_eq] at hfile
  exact ⟨given, hfile⟩

end BufferedFile

namespace BufferedLogFile

variable {s s' t : BufferedLogFile} {basename : Bytes} {before : Disk} {rollSize : Nat} {flushInterval checkEveryN : Int}

/-- The bytes that a call appends. -/
def bytesOf (a : BufferedLabel) : Bytes := (LogFile.appendedBy a.view).flatten

theorem rollFile_pending {a : Answers} (h : (s.rollFile a).map (·.1) = some s') :
    s'.pending = s.pending ∨ s'.pending = [] := by
  obtain ⟨⟨s₁, b⟩, hr, hs⟩ := Option.map_eq_some_iff.1 h
  obtain rfl : s₁ = s' := hs
  simp only [rollFile] at hr
  split at hr
  · obtain ⟨file, hf, hr⟩ := Option.map_eq_some_iff.1 hr
    simp only [BufferedFile.create, Option.ite_none_right_eq_some, Option.some.injEq] at hf
    obtain ⟨-, rfl⟩ := hf
    obtain ⟨rfl, -⟩ := Prod.mk.inj hr
    exact .inr rfl
  · obtain ⟨rfl, -⟩ := Prod.mk.inj (Option.some.inj hr)
    exact .inl rfl

theorem flush_pending (h : s.flush = some s') : s'.pending = [] := by
  obtain ⟨file, -, h⟩ := Option.bind_eq_some_iff.1 h
  obtain rfl := Option.some.inj h
  simp only [pending, Nat.max_eq_left (Nat.sub_le _ _), List.drop_length]

theorem check_pending {call : BufferedCall} {writtenBytes : Nat} (h : s.check call writtenBytes = some s') :
    s'.pending = s.pending ∨ s'.pending = [] := by
  simp only [check] at h
  split at h
  · exact rollFile_pending h
  · split at h
    · split at h
      · have hroll := rollFile_pending h
        exact hroll
      · split at h
        · exact .inr (flush_pending h)
        · obtain rfl := Option.some.inj h
          exact .inl rfl
    · obtain rfl := Option.some.inj h
      exact .inl rfl

/-- What is kept back after a step is the end of what was kept back and what is appended. -/
theorem step_pending {a : BufferedLabel} (ha : LogFile.Whole a.view) (h : s.step a = some s') :
    s'.pending <:+ s.pending ++ bytesOf a ∧
      (s.pending.length ≤ BufferedFile.kBufferSize → s'.pending.length ≤ BufferedFile.kBufferSize) ∧
      (a = .flush → s'.pending = []) := by
  have hnil : s'.pending = [] → s'.pending <:+ s.pending ++ bytesOf a ∧
      (s.pending.length ≤ BufferedFile.kBufferSize → s'.pending.length ≤ BufferedFile.kBufferSize) := fun hnil => by
    rw [hnil]
    exact ⟨List.nil_suffix, fun _ => Nat.zero_le _⟩
  cases a with
  | append call =>
    obtain ⟨file, hfile, h⟩ := Option.bind_eq_some_iff.1 h
    obtain ⟨r, hr, h⟩ := Option.bind_eq_some_iff.1 h
    have hbytes : bytesOf (.append call) = call.logline := List.append_nil _
    have hp : s.pending = file.pending := by rw [pending, hfile]
    rcases check_pending h with heq | heq
    · have heq : s'.pending = r.1.pending := heq
      rw [hbytes, hp, heq]
      exact ⟨BufferedFile.append_pending ha hr, fun _ => (BufferedFile.append_gave hr).bound, fun hf => by cases hf⟩
    · exact ⟨(hnil heq).1, (hnil heq).2, fun _ => heq⟩
  | flush => exact ⟨(hnil (flush_pending h)).1, (hnil (flush_pending h)).2, fun _ => flush_pending h⟩
  | rollFile a =>
    have hbytes : bytesOf (.rollFile a) = [] := rfl
    rcases rollFile_pending h with heq | heq
    · rw [heq, hbytes, List.append_nil]
      exact ⟨List.suffix_rfl, fun hb => hb, fun hf => by cases hf⟩
    · exact ⟨(hnil heq).1, (hnil heq).2, fun _ => heq⟩

/-- The same for a run. -/
theorem run_pending {as : List BufferedLabel} (ha : ∀ a ∈ as, LogFile.Whole a.view)
    (hr : (BufferedRolling basename rollSize flushInterval checkEveryN).run s as = some t) :
    t.pending <:+ s.pending ++ as.flatMap bytesOf ∧
      (s.pending.length ≤ BufferedFile.kBufferSize → t.pending.length ≤ BufferedFile.kBufferSize) := by
  induction as generalizing s with
  | nil =>
    simp only [Lts.System.run_nil, Option.some.injEq] at hr
    rw [hr, List.flatMap_nil, List.append_nil]
    exact ⟨List.suffix_rfl, fun hb => hb⟩
  | cons a as ih =>
    obtain ⟨s', h1, h2⟩ := Lts.System.run_cons.1 hr
    obtain ⟨hstep, hbound, -⟩ := step_pending (ha a List.mem_cons_self) h1
    obtain ⟨hrest, hbound'⟩ := ih (fun b hb => ha b (List.mem_cons_of_mem a hb)) h2
    refine ⟨hrest.trans ?_, fun hb => hbound' (hbound hb)⟩
    obtain ⟨given, hgiven⟩ := hstep
    exact ⟨given, by rw [List.flatMap_cons, ← List.append_assoc, ← List.append_assoc, hgiven]⟩

theorem step_keeps {a : BufferedLabel} {appended : List Bytes} (ha : LogFile.Whole a.view)
    (hk : LogFile.Keeps basename before appended s.view) (h : s.step a = some s') :
    LogFile.Keeps basename before (appended ++ LogFile.appendedBy a.view) s'.view := by
  refine LogFile.step_keeps ha hk ?_
  rw [← step_view, h, Option.map_some]

/-- Only the file that is open has bytes kept back. -/
theorem flushed_files {appended : List Bytes} (hk : LogFile.Keeps basename before appended s.view) :
    (s.opened.map fun o => s.flushed o.filename).flatten =
      (s.opened.map fun o => s.disk o.filename).flatten ++ s.pending := by
  obtain ⟨older, o, ho, -, hfile⟩ := hk.last
  have hnodup := LogFile.names_nodup hk.increasing hk.named
  have ho : s.opened = older ++ [o] := ho
  have hmap : s.view.opened = older ++ [o] := ho
  obtain ⟨file, hf, hname⟩ := Option.map_eq_some_iff.1 hfile
  obtain ⟨buffered, hb, rfl⟩ := Option.map_eq_some_iff.1 hf
  have hname : buffered.filename = o.filename := hname
  have holder : ∀ x ∈ older, s.flushed x.filename = s.disk x.filename := by
    intro x hx
    rw [hmap, List.map_append, List.nodup_append] at hnodup
    have hne := hnodup.2.2 x.filename (List.mem_map_of_mem hx) o.filename (by simp)
    rw [flushed, hb]
    exact update_of_ne (hname ▸ hne) _ _
  have hlast : s.flushed o.filename = s.disk o.filename ++ s.pending := by
    rw [flushed, pending, hb, ← hname]
    exact update_self _ _ _
  rw [ho, List.map_append, List.map_append, List.flatten_append, List.flatten_append, List.map_congr_left holder]
  simp only [List.map_cons, List.map_nil, List.flatten_cons, List.flatten_nil, List.append_nil, hlast, List.append_assoc]

/-- What the kernel has of the files, at any moment, is all that was appended but its
end: less than what was appended since the last flush, and at most one buffer of it. -/
theorem crash_keeps {a : Answers} {as : List BufferedLabel} (hpos : 0 < a.time)
    (h0 : create basename rollSize flushInterval checkEveryN before a = some s) (ha : ∀ a ∈ as, LogFile.Whole a.view)
    (hr : (BufferedRolling basename rollSize flushInterval checkEveryN).run s as = some t)
    (hnew : ∀ o ∈ t.opened, before o.filename = []) :
    ∃ lost, (t.opened.map fun o => t.disk o.filename).flatten ++ lost = as.flatMap bytesOf ∧
      lost.length ≤ BufferedFile.kBufferSize ∧
      ∀ pre post, as = pre ++ .flush :: post → lost <:+ post.flatMap bytesOf := by
  have hview := Lts.System.run_map (M := BufferedRolling basename rollSize flushInterval checkEveryN)
    (N := Rolling basename rollSize flushInterval checkEveryN) (fun _ => step_view) s as
  rw [hr, Option.map_some] at hview
  have hwhole : ∀ a ∈ as.map BufferedLabel.view, LogFile.Whole a := List.forall_mem_map.2 ha
  have hk := LogFile.run_keeps hwhole (LogFile.create_keeps hpos (create_view h0)) hview.symm
  rw [List.nil_append] at hk
  have hempty : s.pending = [] := (rollFile_pending h0).elim id id
  have hbound := (run_pending ha hr).2 (by simp [hempty])
  refine ⟨t.pending, ?_, hbound, ?_⟩
  · obtain ⟨parts, hparts, hflat⟩ := hk.parts
    rw [← flushed_files hk]
    have hfiles := LogFile.flatten_of_holds hparts hnew
    rw [hflat, List.flatMap_map] at hfiles
    refine hfiles.trans ?_
    rw [List.flatMap_def, List.flatten_flatten, List.map_map]
    rfl
  · rintro pre post rfl
    obtain ⟨u, -, hpost⟩ := Lts.System.run_append.1 hr
    obtain ⟨u', hflush, hpost⟩ := Lts.System.run_cons.1 hpost
    have hnil := (step_pending (a := .flush) trivial hflush).2.2 rfl
    have hsuffix := (run_pending (fun a h => ha a (by simp [h])) hpost).1
    rwa [hnil, List.nil_append] at hsuffix

/-- The stream keeps back the line after the flush. -/
theorem crash_keeps_flush : ∃ s t, create [97] 9 3 1 (fun _ => []) ⟨5, none, 1, true⟩ = some s ∧
    (BufferedRolling [97] 9 3 1).run s [.append ⟨[1, 2], fun _ => ⟨2, 0⟩, 5, ⟨5, none, 1, true⟩⟩, .flush,
      .append ⟨[3], fun _ => ⟨1, 0⟩, 6, ⟨6, none, 1, true⟩⟩] = some t ∧
    ∃ lost : Bytes, (t.opened.map fun o => t.disk o.filename).flatten ++ lost = [1, 2, 3] ∧ lost <:+ [3] := by
  have hkeeps : ∀ s t, create [97] 9 3 1 (fun _ => []) ⟨5, none, 1, true⟩ = some s →
      (BufferedRolling [97] 9 3 1).run s [.append ⟨[1, 2], fun _ => ⟨2, 0⟩, 5, ⟨5, none, 1, true⟩⟩, .flush,
        .append ⟨[3], fun _ => ⟨1, 0⟩, 6, ⟨6, none, 1, true⟩⟩] = some t →
      ∃ lost : Bytes, (t.opened.map fun o => t.disk o.filename).flatten ++ lost = [1, 2, 3] ∧ lost <:+ [3] := by
    intro s t h0 hr
    have hwhole : ∀ a ∈ ([.append ⟨[1, 2], fun _ => ⟨2, 0⟩, 5, ⟨5, none, 1, true⟩⟩, .flush,
        .append ⟨[3], fun _ => ⟨1, 0⟩, 6, ⟨6, none, 1, true⟩⟩] : List BufferedLabel), LogFile.Whole a.view := by
      refine List.forall_mem_cons.2 ⟨?_, List.forall_mem_cons.2 ⟨trivial, List.forall_mem_singleton.2 ?_⟩⟩
      · exact AppendFile.writesAll_of_pos fun _ => Nat.two_pos
      · exact AppendFile.writesAll_of_pos fun _ => Nat.one_pos
    obtain ⟨lost, hlost, -, hflush⟩ := crash_keeps (by decide) h0 hwhole hr fun _ _ => rfl
    exact ⟨lost, hlost, hflush [.append ⟨[1, 2], fun _ => ⟨2, 0⟩, 5, ⟨5, none, 1, true⟩⟩] _ rfl⟩
  exact ⟨_, _, rfl, rfl, hkeeps _ _ rfl rfl⟩

end BufferedLogFile

end Ycnt

import Mathlib.Data.List.Forall2
import Ycnt.Lib.Lts
import Ycnt.Lib.Total
import Ycnt.Lib.Calendar
import Ycnt.Lib.Numeral
/-!
# Log files that roll

`File.cpp`: `AppendFile`, the stream of one log file, and `LogFile`, which starts a
new one when the current one is too long or a day is over.

What the system answers is an argument: each `time`, each `fwrite_unlocked`, the
host's name. `Disk` is what the files hold once their streams are flushed.
-/

namespace Ycnt

open Function Total Numeral Calendar

abbrev Bytes := List UInt8

/-- The files by name; one that does not exist holds nothing. -/
abbrev Disk := Bytes → Bytes

/-! ## One file -/

structure AppendFile where
  /-- The file that `fp_` is open on, for appending. -/
  filename : Bytes
  writtenBytes : Nat

namespace AppendFile

/-- The constructor. `fopen` gives a stream or the assertion fails. -/
def create (filename : Bytes) (fopen : Bool) : Option AppendFile :=
  if fopen then some ⟨filename, 0⟩ else none

variable (file : AppendFile) (disk : Disk) (logline : Bytes)

/-- `fwrite_unlocked`, which takes as many bytes as it says, and no more than it is given. -/
def write (fwrite : Nat) : Nat × Disk :=
  (min fwrite logline.length, update disk file.filename (disk file.filename ++ logline.take fwrite))

/-- One turn of the loop: `n` bytes are written, by `k` calls. -/
def appendTurn (fwrite : Nat → Nat) : Nat × Nat × Disk → Option (Nat × Nat × Disk ⊕ Disk)
  | (k, n, disk) =>
    if 0 < logline.length - n then
      let r := file.write disk (logline.drop n) (fwrite k)
      -- The error goes to `stderr`.
      if r.1 = 0 then some (.inr r.2) else some (.inl (k + 1, n + r.1, r.2))
    else some (.inr disk)

/-- `fwrite k` is the result of the `k`th call of `fwrite_unlocked`. -/
def append (fwrite : Nat → Nat) : Option (AppendFile × Disk) := do
  let (n, disk) := file.write disk logline (fwrite 0)
  let disk ← loop (file.appendTurn logline fwrite) (logline.length + 1) (1, n, disk)
  some ({ file with writtenBytes := (file.writtenBytes + logline.length) % 2 ^ 64 }, disk)

/-- All bytes of the line get into the file. -/
def WritesAll (fwrite : Nat → Nat) : Prop := ∀ file : AppendFile, ∀ disk : Disk, ∃ file', file.append disk logline fwrite =
  some (file', update disk file.filename (disk file.filename ++ logline))

variable {file disk logline} {fwrite : Nat → Nat} {len : Nat}

theorem append_filename {r : AppendFile × Disk} (h : file.append disk logline fwrite = some r) :
    r.1.filename = file.filename := by
  obtain ⟨d, -, h⟩ := Option.bind_eq_some_iff.1 h
  obtain rfl := Option.some.inj h
  rfl

/-- The disk when the first `n` bytes of the line are in the file. -/
def wrote (file : AppendFile) (disk : Disk) (logline : Bytes) (n : Nat) : Disk :=
  update disk file.filename (disk file.filename ++ logline.take n)

theorem write_rest (n x : Nat) : file.write (file.wrote disk logline n) (logline.drop n) x =
    (min x (logline.length - n), file.wrote disk logline (n + min x (logline.length - n))) := by
  have htake : (logline.drop n).take x = (logline.drop n).take (min x (logline.length - n)) := by
    rw [← List.length_drop, ← List.take_eq_take_min]
  simp only [write, wrote, update_self, update_idem, List.length_drop, List.append_assoc, List.take_add, htake]

/-- The bytes of a line of `len` bytes that the first `k` calls take. -/
def taken (fwrite : Nat → Nat) (len : Nat) : Nat → Nat
  | 0 => 0
  | k + 1 => taken fwrite len k + min (fwrite k) (len - taken fwrite len k)

/-- No retry takes nothing while bytes remain. -/
def NoZeroRetry (fwrite : Nat → Nat) (len : Nat) : Prop := ∀ k, 1 ≤ k → taken fwrite len k < len → fwrite k ≠ 0

theorem taken_le (fwrite : Nat → Nat) (len k : Nat) : taken fwrite len k ≤ len := by
  induction k with
  | zero => exact Nat.zero_le _
  | succ k ih =>
    rw [taken]
    omega

theorem taken_mono (fwrite : Nat → Nat) (len : Nat) : Monotone (taken fwrite len) :=
  monotone_nat_of_le_succ fun _ => Nat.le_add_right _ _

/-- The place where the loop stops: the first retry without need or without effect. -/
def StopsAt (fwrite : Nat → Nat) (len k : Nat) : Prop :=
  1 ≤ k ∧ (∀ j, 1 ≤ j → j < k → fwrite j ≠ 0) ∧ (taken fwrite len k = len ∨ fwrite k = 0)

/-- The whole line is taken exactly if no retry gives up. -/
theorem StopsAt.whole_iff {k : Nat} (h : StopsAt fwrite len k) : taken fwrite len k = len ↔ NoZeroRetry fwrite len := by
  obtain ⟨hk, hbefore, hstop⟩ := h
  constructor
  · intro hwhole j hj hlt
    refine hbefore j hj ?_
    by_contra hge
    have := taken_mono fwrite len (not_lt.1 hge)
    omega
  · intro hno
    rcases hstop with hwhole | hzero
    · exact hwhole
    · by_contra hne
      exact hno k hk (by have := taken_le fwrite len k; omega) hzero

theorem append_stops (file : AppendFile) (disk : Disk) (logline : Bytes) (fwrite : Nat → Nat) :
    Ends (file.append disk logline fwrite) fun r => ∃ k, StopsAt fwrite logline.length k ∧
      r = ({ file with writtenBytes := (file.writtenBytes + logline.length) % 2 ^ 64 },
        file.wrote disk logline (taken fwrite logline.length k)) := by
  have hfirst : file.write disk logline (fwrite 0) =
      (taken fwrite logline.length 1, file.wrote disk logline (taken fwrite logline.length 1)) := by
    have hrest : file.write (file.wrote disk logline 0) (logline.drop 0) (fwrite 0) = _ := write_rest 0 (fwrite 0)
    simpa [wrote, taken] using hrest
  have hloop : Ends (loop (file.appendTurn logline fwrite) (logline.length + 1) (1, file.write disk logline (fwrite 0)))
      fun d => ∃ k, StopsAt fwrite logline.length k ∧ d = file.wrote disk logline (taken fwrite logline.length k) := by
    refine ends_loop (I := fun s => (1 ≤ s.1 ∧ ∀ j, 1 ≤ j → j < s.1 → fwrite j ≠ 0) ∧
      s.2.1 = taken fwrite logline.length s.1 ∧ s.2.2 = file.wrote disk logline s.2.1)
      (m := fun s => logline.length - s.2.1) ?_ ?_ ?_
    · rintro ⟨k, n, d⟩ ⟨⟨hk, hbefore⟩, hn, hd⟩
      dsimp only at hk hbefore hn hd
      subst hn hd
      refine ends_ite (fun hrest => ?_) fun hdone => ends_some ⟨k, ⟨hk, hbefore, .inl ?_⟩, rfl⟩
      · rw [write_rest]
        refine ends_ite (fun hx => ends_some ?_) fun hx => ends_some ?_
        · -- Nothing is taken of a rest that is not empty.
          dsimp only at hx hrest
          refine ⟨k, ⟨hk, hbefore, .inr (by omega)⟩, ?_⟩
          rw [hx, Nat.add_zero]
        · dsimp only at hx hrest
          refine ⟨⟨⟨Nat.le_add_left 1 k, fun j hj hlt => ?_⟩, rfl, rfl⟩, ?_⟩
          · by_cases hjk : j = k
            · subst hjk
              omega
            · exact hbefore j hj (by dsimp only at hlt; omega)
          · dsimp only
            omega
      · have := taken_le fwrite logline.length k
        omega
    · rw [hfirst]
      exact ⟨⟨le_rfl, fun j h1 h2 => absurd h1 (by omega)⟩, rfl, rfl⟩
    · omega
  refine ends_bind hloop fun d hd => ends_some ?_
  obtain ⟨k, hk, rfl⟩ := hd
  exact ⟨k, hk, rfl⟩

/-- A stream that takes some of what it is given each time takes all in the end. -/
theorem writesAll_of_pos (h : ∀ k, 0 < fwrite k) : WritesAll logline fwrite := by
  intro file disk
  obtain ⟨r, hr, k, hk, rfl⟩ := append_stops file disk logline fwrite
  have hwhole := hk.whole_iff.2 fun j _ _ => (h j).ne'
  rw [hwhole, wrote, List.take_length] at hr
  exact ⟨_, hr⟩

end AppendFile

/-! ## Names -/

def dot : UInt8 := Char.toUInt8 '.'

/-- "%Y%m%d-%H%M%S" -/
def dateText (tm : DateTime) : Bytes :=
  ofInt tm.year ++ (zeroPadded 2 tm.month ++ zeroPadded 2 tm.day ++ Char.toUInt8 '-' ::
    (zeroPadded 2 tm.hour ++ zeroPadded 2 tm.minute ++ zeroPadded 2 tm.second))

/-- ".%Y%m%d-%H%M%S." -/
def strftime (tm : DateTime) : Bytes := dot :: dateText tm ++ [dot]

/-- What a call of `rollFile` is told: the second, what `gethostname` stores if it
succeeds, the process id, whether `fopen` succeeds. -/
structure Answers where
  time : Int
  hostname : Option Bytes
  pid : Int
  fopen : Bool

/-- The text in the 256 bytes of `hostname`. -/
def Answers.host (a : Answers) : Bytes :=
  match a.hostname with
  | some name => (name.take 255).takeWhile (· ≠ 0)
  | none => ['u', 'n', 'k', 'n', 'o', 'w', 'n', 'h', 'o', 's', 't'].map Char.toUInt8

/-- `gmtime_r` is `DateTime.ofSeconds`, which goes on beyond the years that an `int` holds. -/
def getLogFileName (basename : Bytes) (a : Answers) : Bytes :=
  basename ++ strftime (.ofSeconds a.time) ++ a.host ++ dot :: ofInt a.pid ++ ['.', 'l', 'o', 'g'].map Char.toUInt8

theorem digit_ne_dot {c : UInt8} (h : c = Char.toUInt8 '-' ∨ IsDigit c) : c ≠ dot := by
  rintro rfl
  rcases h with h | h
  · exact absurd h (by decide)
  · exact absurd h (by decide)

theorem dot_notMem_dateText (tm : DateTime) : dot ∉ dateText tm := by
  intro h
  simp only [dateText, List.mem_append, List.mem_cons] at h
  rcases h with h | (h | h) | h | (h | h) | h
  · exact digit_ne_dot (mem_ofInt h) rfl
  · exact digit_ne_dot (mem_zeroPadded h) rfl
  · exact digit_ne_dot (mem_zeroPadded h) rfl
  · exact digit_ne_dot (.inl h) rfl
  · exact digit_ne_dot (mem_zeroPadded h) rfl
  · exact digit_ne_dot (mem_zeroPadded h) rfl
  · exact digit_ne_dot (mem_zeroPadded h) rfl

theorem zeroPadded_two {v : Int} (h : 0 ≤ v ∧ v < 100) : (zeroPadded 2 v).length = 2 := by
  obtain ⟨n, rfl⟩ := Int.eq_ofNat_of_zero_le h.1
  exact zeroPadded_length (by decide) (by omega)

theorem day_lt (tm : DateTime) : 0 ≤ tm.day ∧ tm.day < 100 := by
  have h := tm.day_mem
  unfold daysInMonth at h
  split at h <;> split at h <;> omega

theorem width_two (tm : DateTime) : (zeroPadded 2 tm.month).length = 2 ∧ (zeroPadded 2 tm.day).length = 2 ∧
    (zeroPadded 2 tm.hour).length = 2 ∧ (zeroPadded 2 tm.minute).length = 2 ∧ (zeroPadded 2 tm.second).length = 2 := by
  have hm := tm.month_mem
  have hh := tm.hour_mem
  have hmin := tm.minute_mem
  have hs := tm.second_mem
  exact ⟨zeroPadded_two (by omega), zeroPadded_two (day_lt tm), zeroPadded_two (by omega), zeroPadded_two (by omega),
    zeroPadded_two (by omega)⟩

/-- The text of a date says which second it is. -/
theorem dateText_toSeconds {tm tm' : DateTime} (h : dateText tm = dateText tm') : tm.toSeconds = tm'.toSeconds := by
  obtain ⟨hmo, hda, hho, hmi, hse⟩ := width_two tm
  obtain ⟨hmo', hda', hho', hmi', hse'⟩ := width_two tm'
  -- All parts but the year have a fixed width.
  obtain ⟨hyear, h⟩ := List.append_inj' h (by simp only [List.length_append, List.length_cons, *])
  obtain ⟨hdate, h⟩ := List.append_inj h (by simp only [List.length_append, *])
  obtain ⟨hmonth, hday⟩ := List.append_inj hdate (by rw [hmo, hmo'])
  obtain ⟨htime, hsecond⟩ := List.append_inj (List.cons.inj h).2 (by simp only [List.length_append, *])
  obtain ⟨hhour, hminute⟩ := List.append_inj htime (by rw [hho, hho'])
  have hmonth := zeroPadded_inj (by have := tm.month_mem; omega) (by have := tm'.month_mem; omega) hmonth
  have hday := zeroPadded_inj (day_lt tm).1 (day_lt tm').1 hday
  have hhour := zeroPadded_inj tm.hour_mem.1 tm'.hour_mem.1 hhour
  have hminute := zeroPadded_inj tm.minute_mem.1 tm'.minute_mem.1 hminute
  have hsecond := zeroPadded_inj tm.second_mem.1 tm'.second_mem.1 hsecond
  rw [DateTime.toSeconds, DateTime.toSeconds, Date.toDays, Date.toDays, ofInt_injective hyear, hmonth, hday, hhour,
    hminute, hsecond]

/-- Names differ where their seconds do, whatever the host and the process. -/
theorem getLogFileName_time {basename : Bytes} {a a' : Answers} (h : getLogFileName basename a = getLogFileName basename a') :
    a.time = a'.time := by
  simp only [getLogFileName, strftime, List.append_assoc, List.cons_append, List.append_cancel_left_eq, List.cons.injEq,
    true_and, List.nil_append] at h
  -- The text of the date ends at the next dot.
  have huntil : ∀ tm rest, (dateText tm ++ dot :: rest).takeWhile (· ≠ dot) = dateText tm := fun tm rest => by
    have hall : ∀ c ∈ dateText tm, decide (c ≠ dot) = true := fun c hc =>
      decide_eq_true fun heq => dot_notMem_dateText tm (heq ▸ hc)
    rw [List.takeWhile_append_of_pos hall, List.takeWhile_cons_of_neg (by simp), List.append_nil]
  have htext := congrArg (List.takeWhile (· ≠ dot)) h
  rw [huntil, huntil] at htext
  rw [← DateTime.toSeconds_ofSeconds a.time, dateText_toSeconds htext, DateTime.toSeconds_ofSeconds]

/-- `timebuf` holds the text, with its NUL. -/
theorem strftime_length_lt {t : Int} (h0 : 0 ≤ t) (h : t < 2 ^ 63) : (strftime (.ofSeconds t)).length < 32 := by
  obtain ⟨hlo, hhi⟩ := Date.year_le (Int.ediv_nonneg h0 (by decide) : 0 ≤ t / 86400)
  have hyear : (ofInt (DateTime.ofSeconds t).year).length ≤ 13 :=
    ofInt_length_le (v := (Date.ofDays (t / 86400)).year) (by decide) (by omega)
  obtain ⟨hmo, hda, hho, hmi, hse⟩ := width_two (.ofSeconds t)
  simp only [strftime, dateText, List.length_append, List.length_cons, List.length_nil, hmo, hda, hho, hmi, hse]
  omega

/-! ## The rolling file -/

/-- `kRollPerSeconds_`, a day. -/
def kRollPerSeconds : Int := 86400

/-- A file that a `LogFile` has opened, with its `lastRoll_` then. -/
structure Opened where
  lastRoll : Int
  filename : Bytes

structure LogFile where
  basename : Bytes
  rollSize : Nat
  flushInterval : Int
  checkEveryN : Int
  count : Int
  startOfPeriod : Int
  lastRoll : Int
  lastFlush : Int
  file : Option AppendFile
  disk : Disk
  /-- In the order of their opening. -/
  opened : List Opened

/-- A call of `append`. -/
structure AppendCall where
  logline : Bytes
  /-- The results of the calls of `fwrite_unlocked` in `AppendFile::append`. -/
  fwrite : Nat → Nat
  /-- What `time` says in `append` itself. -/
  time : Int
  /-- What `rollFile` is told, if it is called. -/
  roll : Answers

inductive LogFileLabel where
  | append (call : AppendCall)
  | flush
  | rollFile (answers : Answers)

namespace LogFile

variable (s : LogFile)

/-- The day of a second, by its first second. -/
def period (now : Int) : Int := now.tdiv kRollPerSeconds * kRollPerSeconds

def rollFile (a : Answers) : Option (LogFile × Bool) :=
  let filename := getLogFileName s.basename a
  let now := a.time
  if now > s.lastRoll then
    (AppendFile.create filename a.fopen).map fun file =>
      ({ s with
          lastRoll := now
          lastFlush := now
          startOfPeriod := period now
          file := some file
          opened := s.opened ++ [⟨now, filename⟩] }, true)
  else some (s, false)

/-- The constructor. Where its `rollFile` opens no file, `file_` stays null. -/
def create (basename : Bytes) (rollSize : Nat) (flushInterval checkEveryN : Int) (disk : Disk) (a : Answers) :
    Option LogFile :=
  (rollFile
    { basename, rollSize, flushInterval, checkEveryN
      count := 0
      startOfPeriod := 0
      lastRoll := 0
      lastFlush := 0
      file := none
      disk
      opened := [] } a).map (·.1)

/-- What `append` does when the line is in the file. -/
def check (call : AppendCall) (writtenBytes : Nat) : Option LogFile :=
  if writtenBytes > s.rollSize then (s.rollFile call.roll).map (·.1)
  else
    let s := { s with count := s.count + 1 }
    if s.count ≥ s.checkEveryN then
      let s := { s with count := 0 }
      let now := call.time
      if period now ≠ s.startOfPeriod then (s.rollFile call.roll).map (·.1)
      -- The flush leaves `disk` as it is.
      else if now - s.lastFlush > s.flushInterval then some { s with lastFlush := now }
      else some s
    else some s

/-- `none` stands for a null `file_` too. -/
def append (call : AppendCall) : Option LogFile := do
  let file ← s.file
  let (file, disk) ← file.append s.disk call.logline call.fwrite
  check { s with file := some file, disk } call file.writtenBytes

def step : LogFileLabel → Option LogFile
  | .append call => s.append call
  | .flush => s.file.map fun _ => s
  | .rollFile a => (s.rollFile a).map (·.1)

end LogFile

/-- The calls on one `LogFile`, which is not thread safe. -/
def Rolling (basename : Bytes) (rollSize : Nat) (flushInterval checkEveryN : Int) :
    Lts.System LogFile LogFileLabel where
  init s := ∃ disk a, 0 < a.time ∧ LogFile.create basename rollSize flushInterval checkEveryN disk a = some s
  step s a := s.step a

/-! ## What a step does to the files -/

namespace LogFile

variable {s s' : LogFile} {basename : Bytes} {disk : Disk}

/-- The same files are open, with the same contents. -/
structure SameFiles (s s' : LogFile) : Prop where
  basename_eq : s'.basename = s.basename
  disk_eq : s'.disk = s.disk
  opened_eq : s'.opened = s.opened
  lastRoll_eq : s'.lastRoll = s.lastRoll
  file_eq : s'.file.map (·.filename) = s.file.map (·.filename)

/-- A file is opened, at a later second than all before. -/
structure Rolls (a : Answers) (s s' : LogFile) : Prop where
  basename_eq : s'.basename = s.basename
  disk_eq : s'.disk = s.disk
  opened_eq : s'.opened = s.opened ++ [⟨a.time, getLogFileName s.basename a⟩]
  lastRoll_lt : s.lastRoll < a.time
  lastRoll_eq : s'.lastRoll = a.time
  file_eq : s'.file.map (·.filename) = some (getLogFileName s.basename a)

theorem SameFiles.trans_rolls {s'' : LogFile} {a : Answers} (h : SameFiles s s') (h' : Rolls a s' s'') : Rolls a s s'' where
  basename_eq := h'.basename_eq.trans h.basename_eq
  disk_eq := h'.disk_eq.trans h.disk_eq
  opened_eq := by rw [h'.opened_eq, h.opened_eq, h.basename_eq]
  lastRoll_lt := h.lastRoll_eq ▸ h'.lastRoll_lt
  lastRoll_eq := h'.lastRoll_eq
  file_eq := by rw [h'.file_eq, h.basename_eq]

theorem rollFile_cases {a : Answers} {b : Bool} (h : s.rollFile a = some (s', b)) :
    (b = false ∧ s' = s) ∨ (b = true ∧ Rolls a s s') := by
  simp only [rollFile] at h
  split at h
  · rename_i hlt
    obtain ⟨file, hf, h⟩ := Option.map_eq_some_iff.1 h
    simp only [AppendFile.create, Option.ite_none_right_eq_some, Option.some.injEq] at hf
    obtain ⟨-, rfl⟩ := hf
    obtain ⟨rfl, rfl⟩ := Prod.mk.inj h
    exact .inr ⟨rfl, rfl, rfl, rfl, hlt, rfl, rfl⟩
  · obtain ⟨rfl, rfl⟩ := Prod.mk.inj (Option.some.inj h)
    exact .inl ⟨rfl, rfl⟩

theorem rollFile_files {a : Answers} (h : (s.rollFile a).map (·.1) = some s') : SameFiles s s' ∨ Rolls a s s' := by
  obtain ⟨⟨s₁, b⟩, hr, hs⟩ := Option.map_eq_some_iff.1 h
  obtain rfl : s₁ = s' := hs
  rcases rollFile_cases hr with ⟨-, rfl⟩ | ⟨-, hroll⟩
  · exact .inl ⟨rfl, rfl, rfl, rfl, rfl⟩
  · exact .inr hroll

theorem check_files {call : AppendCall} {writtenBytes : Nat} (h : s.check call writtenBytes = some s') :
    SameFiles s s' ∨ Rolls call.roll s s' := by
  simp only [check] at h
  split at h
  · exact rollFile_files h
  · split at h
    · split at h
      · -- A new period.
        have hcount : SameFiles s { s with count := 0 } := ⟨rfl, rfl, rfl, rfl, rfl⟩
        rcases rollFile_files h with hsame | hroll
        · exact .inl ⟨hsame.1, hsame.2, hsame.3, hsame.4, hsame.5⟩
        · exact .inr (hcount.trans_rolls hroll)
      · split at h
        · obtain rfl := Option.some.inj h
          exact .inl ⟨rfl, rfl, rfl, rfl, rfl⟩
        · obtain rfl := Option.some.inj h
          exact .inl ⟨rfl, rfl, rfl, rfl, rfl⟩
    · obtain rfl := Option.some.inj h
      exact .inl ⟨rfl, rfl, rfl, rfl, rfl⟩

/-- A line goes to the file that is open, before any check. -/
theorem append_files {call : AppendCall} (hw : AppendFile.WritesAll call.logline call.fwrite)
    (h : s.append call = some s') : ∃ filename s₁, s.file.map (·.filename) = some filename ∧
      SameFiles { s with disk := update s.disk filename (s.disk filename ++ call.logline) } s₁ ∧
      (SameFiles s₁ s' ∨ Rolls call.roll s₁ s') := by
  obtain ⟨file, hfile, h⟩ := Option.bind_eq_some_iff.1 h
  obtain ⟨file', heq⟩ := hw file s.disk
  rw [heq] at h
  have hname := AppendFile.append_filename heq
  refine ⟨file.filename, _, by rw [hfile]; rfl, ?_, check_files h⟩
  exact ⟨rfl, rfl, rfl, rfl, by rw [hfile]; exact congrArg some hname⟩

/-! ## What is kept -/

/-- The file holds what was in it before, and after that the strings of `part`. -/
def Holds (before disk : Disk) (o : Opened) (part : List Bytes) : Prop := disk o.filename = before o.filename ++ part.flatten

/-- The files hold the strings appended, each in one file, in the order of the
files. Each was opened later than the one before, and is named after that second. -/
structure Keeps (basename : Bytes) (before : Disk) (appended : List Bytes) (s : LogFile) : Prop where
  basename_eq : s.basename = basename
  parts : ∃ parts, List.Forall₂ (Holds before s.disk) s.opened parts ∧ parts.flatten = appended
  untouched : ∀ name ∉ s.opened.map (·.filename), s.disk name = before name
  increasing : (s.opened.map (·.lastRoll)).Pairwise (· < ·)
  named : ∀ o ∈ s.opened, ∃ a : Answers, a.time = o.lastRoll ∧ o.filename = getLogFileName basename a
  last : ∃ older o, s.opened = older ++ [o] ∧ o.lastRoll = s.lastRoll ∧ s.file.map (·.filename) = some o.filename

variable {before : Disk} {appended : List Bytes}

/-- Later files have other names. -/
theorem names_nodup {opened : List Opened} (hinc : (opened.map (·.lastRoll)).Pairwise (· < ·))
    (hnamed : ∀ o ∈ opened, ∃ a : Answers, a.time = o.lastRoll ∧ o.filename = getLogFileName basename a) :
    (opened.map (·.filename)).Nodup := by
  rw [List.Nodup, List.pairwise_map]
  rw [List.pairwise_map] at hinc
  refine hinc.imp_of_mem fun {o o'} ho ho' hlt heq => ?_
  obtain ⟨a, hat, haf⟩ := hnamed o ho
  obtain ⟨a', hat', haf'⟩ := hnamed o' ho'
  have := getLogFileName_time (haf.symm.trans (heq.trans haf'))
  omega

theorem Keeps.same (h : Keeps basename before appended s) (hs : SameFiles s s') : Keeps basename before appended s' := by
  obtain ⟨hb, hp, hu, hi, hn, hl⟩ := h
  obtain ⟨hb', hd', ho', hr', hf'⟩ := hs
  exact ⟨hb' ▸ hb, by rw [hd', ho']; exact hp, by rw [hd', ho']; exact hu, by rw [ho']; exact hi, by rw [ho']; exact hn,
    by rw [ho', hr', hf']; exact hl⟩

/-- What is appended to the last file is appended to its part. -/
theorem holds_append {older : List Opened} {o : Opened} {parts : List (List Bytes)} (logline : Bytes)
    (h : List.Forall₂ (Holds before disk) (older ++ [o]) parts) (hn : ∀ x ∈ older, x.filename ≠ o.filename) :
    ∃ parts', List.Forall₂ (Holds before (update disk o.filename (disk o.filename ++ logline))) (older ++ [o]) parts' ∧
      parts'.flatten = parts.flatten ++ [logline] := by
  induction older generalizing parts with
  | nil =>
    obtain ⟨part, _, hpart, hnil, rfl⟩ := List.forall₂_cons_left_iff.1 h
    obtain rfl := List.forall₂_nil_left_iff.1 hnil
    refine ⟨[part ++ [logline]], .cons ?_ .nil, by simp⟩
    rw [Holds] at hpart ⊢
    simp [hpart]
  | cons x older ih =>
    obtain ⟨part, rest, hpart, hrest, rfl⟩ := List.forall₂_cons_left_iff.1 h
    obtain ⟨rest', hrest', hflat⟩ := ih hrest fun y hy => hn y (by simp [hy])
    refine ⟨part :: rest', .cons ?_ hrest', by simp [hflat]⟩
    rw [Holds, update_of_ne (hn x (by simp))]
    exact hpart

theorem Keeps.append (h : Keeps basename before appended s) (logline : Bytes) {filename : Bytes}
    (hf : s.file.map (·.filename) = some filename) :
    Keeps basename before (appended ++ [logline])
      { s with disk := update s.disk filename (s.disk filename ++ logline) } := by
  obtain ⟨older, o, ho, -, hfile⟩ := h.last
  obtain rfl : o.filename = filename := Option.some.inj (hfile.symm.trans hf)
  have hnodup := names_nodup h.increasing h.named
  obtain ⟨parts, hparts, hflat⟩ := h.parts
  rw [ho, List.map_append, List.nodup_append] at hnodup
  rw [ho] at hparts
  have hne : ∀ x ∈ older, x.filename ≠ o.filename := fun x hx =>
    hnodup.2.2 x.filename (List.mem_map_of_mem hx) o.filename (by simp)
  obtain ⟨parts', hparts', hflat'⟩ := holds_append logline hparts hne
  refine ⟨h.basename_eq, ⟨parts', ?_, by rw [hflat', hflat]⟩, fun name hname => ?_, h.increasing, h.named, h.last⟩
  · simpa only [ho] using hparts'
  · have hne' : name ≠ o.filename := by
      rintro rfl
      exact hname (by simp [ho])
    simp only [update_of_ne hne']
    exact h.untouched name hname

theorem Keeps.le_lastRoll (h : Keeps basename before appended s) {r : Int} (hr : r ∈ s.opened.map (·.lastRoll)) :
    r ≤ s.lastRoll := by
  obtain ⟨older, o, ho, hlast, -⟩ := h.last
  have hinc := h.increasing
  rw [ho, List.map_append] at hr hinc
  rcases List.mem_append.1 hr with hr | hr
  · exact ((List.pairwise_append.1 hinc).2.2 r hr o.lastRoll (by simp)).le.trans hlast.le
  · exact (List.mem_singleton.1 hr).le.trans hlast.le

theorem Keeps.roll (h : Keeps basename before appended s) {a : Answers} (hroll : Rolls a s s') :
    Keeps basename before appended s' := by
  obtain ⟨parts, hparts, hflat⟩ := h.parts
  have hname : s'.opened = s.opened ++ [⟨a.time, getLogFileName basename a⟩] := by rw [hroll.opened_eq, h.basename_eq]
  have hinc : (s'.opened.map (·.lastRoll)).Pairwise (· < ·) := by
    rw [hname, List.map_append, List.pairwise_append]
    refine ⟨h.increasing, List.pairwise_singleton _ _, fun r hr' r' hr'' => ?_⟩
    obtain rfl := List.mem_singleton.1 hr''
    exact (h.le_lastRoll hr').trans_lt hroll.lastRoll_lt
  have hnamed : ∀ o ∈ s'.opened, ∃ a : Answers, a.time = o.lastRoll ∧ o.filename = getLogFileName basename a := by
    intro o ho
    rw [hname] at ho
    rcases List.mem_append.1 ho with ho | ho
    · exact h.named o ho
    · obtain rfl := List.mem_singleton.1 ho
      exact ⟨a, rfl, rfl⟩
  have hfresh : getLogFileName basename a ∉ s.opened.map (·.filename) := by
    have hnodup := names_nodup hinc hnamed
    rw [hname, List.map_append, List.nodup_append] at hnodup
    exact fun hmem => hnodup.2.2 _ hmem _ (by simp) rfl
  refine ⟨hroll.basename_eq.trans h.basename_eq, ⟨parts ++ [[]], ?_, by simp [hflat]⟩, fun name hn => ?_, hinc, hnamed, ?_⟩
  · rw [hname, hroll.disk_eq]
    refine List.rel_append hparts (.cons ?_ .nil)
    simpa [Holds] using h.untouched _ hfresh
  · rw [hroll.disk_eq]
    refine h.untouched name fun hmem => hn ?_
    rw [hname, List.map_append]
    exact List.mem_append_left _ hmem
  · exact ⟨s.opened, _, hname, hroll.lastRoll_eq.symm, by rw [hroll.file_eq, h.basename_eq]⟩

/-- The strings that a call appends. -/
def appendedBy : LogFileLabel → List Bytes
  | .append call => [call.logline]
  | .flush | .rollFile _ => []

/-- `AppendFile` writes all bytes of the call, if it appends any. -/
def Whole : LogFileLabel → Prop
  | .append call => AppendFile.WritesAll call.logline call.fwrite
  | .flush | .rollFile _ => True

theorem step_keeps {a : LogFileLabel} (ha : Whole a) (hk : Keeps basename before appended s) (h : s.step a = some s') :
    Keeps basename before (appended ++ appendedBy a) s' := by
  cases a with
  | append call =>
    obtain ⟨filename, s₁, hf, hsame, hs'⟩ := append_files ha h
    have hk₁ := (hk.append call.logline hf).same hsame
    rcases hs' with hs' | hs'
    · exact hk₁.same hs'
    · exact hk₁.roll hs'
  | flush =>
    obtain ⟨file, -, rfl⟩ := Option.map_eq_some_iff.1 h
    simpa [appendedBy] using hk
  | rollFile a =>
    rw [appendedBy, List.append_nil]
    rcases rollFile_files h with hs' | hs'
    · exact hk.same hs'
    · exact hk.roll hs'

theorem create_keeps {rollSize : Nat} {flushInterval checkEveryN : Int} {a : Answers} (hpos : 0 < a.time)
    (h : create basename rollSize flushInterval checkEveryN before a = some s) : Keeps basename before [] s := by
  obtain ⟨⟨s₁, b⟩, hr, hs⟩ := Option.map_eq_some_iff.1 h
  obtain rfl : s₁ = s := hs
  simp only [rollFile, if_pos hpos] at hr
  obtain ⟨file, hf, hr⟩ := Option.map_eq_some_iff.1 hr
  simp only [AppendFile.create, Option.ite_none_right_eq_some, Option.some.injEq] at hf
  obtain ⟨-, rfl⟩ := hf
  obtain ⟨rfl, -⟩ := Prod.mk.inj hr
  exact ⟨rfl, ⟨[[]], .cons (by simp [Holds]) .nil, rfl⟩, fun _ _ => rfl, List.pairwise_singleton _ _,
    fun o ho => ⟨a, by obtain rfl := List.mem_singleton.1 ho; exact ⟨rfl, rfl⟩⟩, [], _, rfl, rfl, rfl⟩

variable {rollSize : Nat} {flushInterval checkEveryN : Int}

theorem run_keeps {t : LogFile} {as : List LogFileLabel} (ha : ∀ a ∈ as, Whole a)
    (hk : Keeps basename before appended s) (hr : (Rolling basename rollSize flushInterval checkEveryN).run s as = some t) :
    Keeps basename before (appended ++ as.flatMap appendedBy) t := by
  induction as generalizing s appended with
  | nil =>
    simp only [Lts.System.run_nil, Option.some.injEq] at hr
    simpa [hr] using hk
  | cons a as ih =>
    obtain ⟨s', h1, h2⟩ := Lts.System.run_cons.1 hr
    have := ih (fun b hb => ha b (by simp [hb])) (step_keeps (ha a (by simp)) hk h1) h2
    simpa [List.append_assoc] using this

/-- Where no file was there before, the files put together are what was appended. -/
theorem flatten_of_holds {disk : Disk} {opened : List Opened} {parts : List (List Bytes)}
    (h : List.Forall₂ (Holds before disk) opened parts) (hnew : ∀ o ∈ opened, before o.filename = []) :
    (opened.map fun o => disk o.filename).flatten = parts.flatten.flatten := by
  induction h with
  | nil => rfl
  | cons hpart _ ih =>
    rw [Holds, hnew _ (by simp), List.nil_append] at hpart
    rw [List.map_cons, List.flatten_cons, List.flatten_cons, List.flatten_append, hpart,
      ih fun o ho => hnew o (by simp [ho])]

/-- `fopen` succeeds where a call may open a file. -/
def Opens : LogFileLabel → Prop
  | .append call => call.roll.fopen = true
  | .flush => True
  | .rollFile a => a.fopen = true

theorem rollFile_isSome {a : Answers} (h : a.fopen = true) : ((s.rollFile a).map (·.1)).isSome := by
  simp only [rollFile, AppendFile.create, if_pos h]
  split <;> rfl

/-- No call finds `file_` null: only a failed `fopen` ends a run. -/
theorem step_isSome {a : LogFileLabel} (ha : Whole a) (hopen : Opens a) (hk : Keeps basename before appended s) :
    (s.step a).isSome := by
  obtain ⟨older, o, -, -, hfile⟩ := hk.last
  obtain ⟨file, hf, -⟩ := Option.map_eq_some_iff.1 hfile
  cases a with
  | append call =>
    obtain ⟨file', heq⟩ := ha file s.disk
    rw [step, append, hf, Option.bind_eq_bind, Option.bind_some, heq, Option.bind_eq_bind, Option.bind_some]
    simp only [check]
    split
    · exact rollFile_isSome hopen
    · split
      · split
        · exact rollFile_isSome hopen
        · split <;> rfl
      · rfl
  | flush => simp [step, hf]
  | rollFile a => exact rollFile_isSome hopen

/-- Rolling loses nothing and splits nothing: the strings appended are shared out
among the files opened, in the order of their opening. The seconds the files are
named after increase, so no two have one name. -/
theorem rolling_keeps {a : Answers} {as : List LogFileLabel} {t : LogFile} (hpos : 0 < a.time)
    (h0 : create basename rollSize flushInterval checkEveryN before a = some s) (ha : ∀ a ∈ as, Whole a)
    (hr : (Rolling basename rollSize flushInterval checkEveryN).run s as = some t) :
    (∃ parts, List.Forall₂ (Holds before t.disk) t.opened parts ∧ parts.flatten = as.flatMap appendedBy) ∧
      ((∀ o ∈ t.opened, before o.filename = []) →
        (t.opened.map fun o => t.disk o.filename).flatten = (as.flatMap appendedBy).flatten) ∧
      (t.opened.map (·.lastRoll)).Pairwise (· < ·) ∧
      (∀ o ∈ t.opened, ∃ a : Answers, a.time = o.lastRoll ∧ o.filename = getLogFileName basename a) ∧
      (t.opened.map (·.filename)).Nodup := by
  have hk := run_keeps ha (create_keeps hpos h0) hr
  obtain ⟨parts, hparts, hflat⟩ := hk.parts
  rw [List.nil_append] at hflat
  refine ⟨⟨parts, hparts, hflat⟩, fun hnew => ?_, hk.increasing, hk.named, names_nodup hk.increasing hk.named⟩
  rw [flatten_of_holds hparts hnew, hflat]

/-- A file that is full after its first line, and a second one, opened at second 9,
that stays open while the clock has gone back to 8. -/
theorem rolling_keeps_clock_back : ∃ s t, create [97] 0 3 1 (fun _ => []) ⟨5, none, 1, true⟩ = some s ∧
    (Rolling [97] 0 3 1).run s [.append ⟨[1], fun _ => 1, 9, ⟨9, none, 1, true⟩⟩,
      .append ⟨[2], fun _ => 1, 8, ⟨8, none, 1, true⟩⟩, .append ⟨[3], fun _ => 1, 8, ⟨8, none, 1, true⟩⟩] = some t ∧
    t.opened.map (·.lastRoll) = [5, 9] ∧ (t.opened.map (·.filename)).Nodup ∧
    (t.opened.map fun o => t.disk o.filename).flatten = [1, 2, 3] := by
  have hkeeps : ∀ s t, create [97] 0 3 1 (fun _ => []) ⟨5, none, 1, true⟩ = some s →
      (Rolling [97] 0 3 1).run s [.append ⟨[1], fun _ => 1, 9, ⟨9, none, 1, true⟩⟩,
        .append ⟨[2], fun _ => 1, 8, ⟨8, none, 1, true⟩⟩, .append ⟨[3], fun _ => 1, 8, ⟨8, none, 1, true⟩⟩] = some t →
      (t.opened.map (·.filename)).Nodup ∧ (t.opened.map fun o => t.disk o.filename).flatten = [1, 2, 3] := by
    intro s t h0 hr
    have hall : ∀ logline time roll, Whole (.append ⟨logline, fun _ => 1, time, roll⟩) := fun _ _ _ =>
      AppendFile.writesAll_of_pos fun _ => Nat.one_pos
    have hkeeps := fun ha => rolling_keeps (by decide) h0 ha hr
    obtain ⟨-, hflat, -, -, hnodup⟩ := hkeeps (List.forall_mem_cons.2 ⟨hall _ _ _,
      List.forall_mem_cons.2 ⟨hall _ _ _, List.forall_mem_cons.2 ⟨hall _ _ _, List.forall_mem_nil _⟩⟩⟩)
    exact ⟨hnodup, hflat fun _ _ => rfl⟩
  exact ⟨_, _, rfl, rfl, rfl, hkeeps _ _ rfl rfl⟩

end LogFile

end Ycnt

import Ycnt.Base.LogStream.Contents
import Ycnt.Base.Logger
/-!
# The header of a record

The constructor of `Logger` with `formatTime` (`LogStream.cpp`) and the tid caches
of `currentThread` (`Thread.h`, `Thread.cpp`). Each thread keeps the text of its
tid and of the second of its last record in thread-local variables.
-/

namespace Ycnt

open Function Total Numeral

/-! ## Parameters -/

/-- `localtime_r` and the `snprintf` of its result: the text of a second. -/
structure LocalTime where
  format : Int → List UInt8
  length_eq : ∀ seconds, (format seconds).length = 19
  ne_zero : ∀ seconds, ∀ c ∈ format seconds, c ≠ 0

/-- A thread id of the kernel, a positive `int`. -/
structure Tid where
  val : Nat
  pos : 0 < val
  lt : val < 2 ^ 31

/-! ## The thread-local variables -/

structure ThreadLocals where
  t_cachedTid : Nat
  t_tidString : List UInt8
  t_tidStringLength : Nat
  t_time : List UInt8
  t_lastSecond : Int
  t_tidStringLength_le : t_tidStringLength ≤ 32

/-- Their initial values. -/
def ThreadLocals.initial : ThreadLocals where
  t_cachedTid := 0
  t_tidString := List.replicate 32 0
  t_tidStringLength := 6
  t_time := List.replicate 64 0
  t_lastSecond := 0
  t_tidStringLength_le := by decide

/-- `snprintf(buf, sizeof(buf), ..)`, for a text that fits with its NUL. -/
def snprintf (buf text : List UInt8) : List UInt8 := text ++ 0 :: buf.drop (text.length + 1)

theorem take_snprintf (buf text : List UInt8) : (snprintf buf text).take text.length = text := List.take_left

/-- "%5d " -/
def tidText (tid : Tid) : List UInt8 := blankPadded 5 tid.val ++ [Char.toUInt8 ' ']

theorem tidText_length_le (tid : Tid) : (tidText tid).length ≤ 12 := by
  have hlt : (tid.val : Int).natAbs < 10 ^ 10 := by
    have := tid.lt
    omega
  have := blankPadded_length_le (w := 5) (by decide) (ofInt_length_le (by decide) hlt)
  simp only [tidText, List.length_append, List.length_singleton]
  omega

/-- `currentThread::cacheTid` -/
def cacheTid (gettid : Tid) (c : ThreadLocals) : ThreadLocals :=
  if c.t_cachedTid = 0 then
    { c with
      t_cachedTid := gettid.val
      t_tidString := snprintf c.t_tidString (tidText gettid)
      t_tidStringLength := (tidText gettid).length
      t_tidStringLength_le := (tidText_length_le gettid).trans (by decide) }
  else c

/-- `currentThread::tid`, which returns the new `t_cachedTid`. -/
def tid (gettid : Tid) (c : ThreadLocals) : ThreadLocals := if c.t_cachedTid = 0 then cacheTid gettid c else c

/-! ## The constructor -/

namespace Logger

open LogStream

def kMicroSecondsPerSecond : Int := 1000 * 1000

def LogLevelName : LogLevel → List UInt8
  | .TRACE => ['T', 'R', 'A', 'C', 'E', ' '].map Char.toUInt8
  | .DEBUG => ['D', 'E', 'B', 'U', 'G', ' '].map Char.toUInt8
  | .INFO => ['I', 'N', 'F', 'O', ' ', ' '].map Char.toUInt8
  | .WARN => ['W', 'A', 'R', 'N', ' ', ' '].map Char.toUInt8
  | .ERROR => ['E', 'R', 'R', 'O', 'R', ' '].map Char.toUInt8
  | .FATAL => ['F', 'A', 'T', 'A', 'L', ' '].map Char.toUInt8

/-- ".%06d " -/
def microsecondsText (microseconds : Int) : List UInt8 :=
  Char.toUInt8 '.' :: zeroPadded 6 microseconds ++ [Char.toUInt8 ' ']

/-- `formatTime`, for the `time_` of `microSecondsSinceEpoch`. -/
def formatTime (lt : LocalTime) (microSecondsSinceEpoch : Int) (c : ThreadLocals) (stream_ : Buffer) :
    Option (ThreadLocals × Buffer) := do
  let seconds := microSecondsSinceEpoch.tdiv kMicroSecondsPerSecond
  let microseconds := microSecondsSinceEpoch.tmod kMicroSecondsPerSecond
  let c ← (if seconds ≠ c.t_lastSecond then do
      guard ((lt.format seconds).length = 19)
      pure { c with t_lastSecond := seconds, t_time := snprintf c.t_time (lt.format seconds) }
    else pure c)
  let buf := microsecondsText microseconds
  guard (buf.length = 8)
  let stream_ ← LogStream.run stream_ [.stringView (c.t_time.take 19), .stringView (buf.take 8)]
  pure (c, stream_)

/-- The constructor of `Logger`, with what `Timestamp::now()` gives. -/
def construct (lt : LocalTime) (now : Int) (level : LogLevel) (c : ThreadLocals) (stream_ : Buffer) :
    Option (ThreadLocals × Buffer) := do
  let (c, stream_) ← formatTime lt now c stream_
  let stream_ ← LogStream.run stream_
    [.stringView (c.t_tidString.take c.t_tidStringLength), .stringView ((LogLevelName level).take 6), .char (Char.toUInt8 ' ')]
  pure (c, stream_)

/-! ## What a constructor writes -/

/-- The header without caches. -/
def header (lt : LocalTime) (gettid : Tid) (now : Nat) (level : LogLevel) : List UInt8 :=
  lt.format (now / 1000000 : Nat) ++ microsecondsText (now % 1000000 : Nat) ++ tidText gettid ++ LogLevelName level ++
    [Char.toUInt8 ' ']

theorem microsecondsText_length (now : Nat) : (microsecondsText (now % 1000000 : Nat)).length = 8 := by
  have hlt : now % 1000000 < 10 ^ 6 := Nat.mod_lt _ (by decide)
  have := zeroPadded_length (by decide) hlt
  simp only [microsecondsText, List.length_cons, List.length_append, List.length_nil]
  omega

theorem LogLevelName_length (level : LogLevel) : (LogLevelName level).length = 6 := by
  cases level <;> rfl

/-- The time caches after a record of the second `seconds`. -/
def timed (lt : LocalTime) (seconds : Int) (c : ThreadLocals) : ThreadLocals :=
  if seconds ≠ c.t_lastSecond then
    { c with t_lastSecond := seconds, t_time := snprintf c.t_time (lt.format seconds) }
  else c

/-- No assertion fails, and the header is put together from the caches. -/
theorem construct_ends (lt : LocalTime) (now : Nat) (level : LogLevel) (c : ThreadLocals) (data : Nat → UInt8) :
    Ends (construct lt now level c (.new data)) fun (c', b) => c' = timed lt (now / 1000000 : Nat) c ∧
      b.contents = c'.t_time.take 19 ++ microsecondsText (now % 1000000 : Nat) ++
        c'.t_tidString.take c'.t_tidStringLength ++ LogLevelName level ++ [Char.toUInt8 ' '] := by
  have hsec : (now : Int).tdiv kMicroSecondsPerSecond = (now / 1000000 : Nat) := rfl
  have hmicro : (now : Int).tmod kMicroSecondsPerSecond = (now % 1000000 : Nat) := rfl
  have hbuf := microsecondsText_length now
  have hlevel := LogLevelName_length level
  have htime : Ends (formatTime lt now c (.new data)) fun (c', b) => c' = timed lt (now / 1000000 : Nat) c ∧
      b.contents = c'.t_time.take 19 ++ microsecondsText (now % 1000000 : Nat) := by
    simp only [formatTime, hsec, hmicro]
    refine ends_bind (P := fun c' => c' = timed lt (now / 1000000 : Nat) c) ?_ ?_
    · unfold timed
      apply ends_ite
      · intro hne
        rw [if_pos hne]
        refine ends_bind (ends_guard (P := fun _ => True) (lt.length_eq _) trivial) fun _ _ => ends_pure rfl
      · intro heq
        rw [if_neg heq]
        exact ends_pure rfl
    rintro c' rfl
    refine ends_bind (ends_guard (P := fun _ => True) hbuf trivial) fun _ _ => ?_
    rw [List.take_of_length_le hbuf.le]
    refine ends_bind (run_strings _ [(timed lt (now / 1000000 : Nat) c).t_time.take 19, _] rfl ?_)
      fun b hb => ends_pure ⟨rfl, by simp [hb]⟩
    have hnew : (FixedBuffer.new data : Buffer).length = 0 := rfl
    have hsize : kSmallBufferSize = 4096 := rfl
    simp only [List.flatten_cons, List.flatten_nil, List.length_append, List.length_take, List.length_nil, hnew]
    omega
  unfold construct
  refine ends_bind htime ?_
  rintro ⟨c', b⟩ ⟨rfl, hb⟩
  have htid := (timed lt (now / 1000000 : Nat) c).t_tidStringLength_le
  have hlen : b.length ≤ 27 := by
    rw [← b.contents_length, hb]
    simp only [List.length_append, List.length_take]
    omega
  rw [List.take_of_length_le hlevel.le]
  refine ends_bind (run_strings b [(timed lt (now / 1000000 : Nat) c).t_tidString.take _, _, _] rfl ?_)
    fun b' hb' => ends_pure ⟨rfl, by simp [hb', hb]⟩
  have hsize : kSmallBufferSize = 4096 := rfl
  simp only [List.flatten_cons, List.flatten_nil, List.length_append, List.length_take, List.length_singleton,
    List.length_nil]
  omega

end Logger

/-! ## Threads -/

/-- What a constructor wrote. -/
structure HeaderRecord (τ : Type*) where
  thread : τ
  now : Nat
  level : LogLevel
  header : List UInt8

structure HeadersState (τ : Type*) where
  locals : τ → ThreadLocals
  initialized : Bool
  records : List (HeaderRecord τ)

inductive HeadersLabel (τ : Type*) where
  /-- `Logger::init` -/
  | init (t : τ)
  /-- A call of `currentThread::tid`: the first thing a `base::Thread` does
  (`ThreadData::run`), and part of every `AsyncLogging::append`. -/
  | tid (t : τ)
  /-- A log statement whose clock reads `now`; `data` is the uninitialised buffer of its stream. -/
  | construct (t : τ) (now : Nat) (level : LogLevel) (data : Nat → UInt8)

namespace HeadersState

variable {τ : Type*} [DecidableEq τ] (lt : LocalTime) (gettid : τ → Tid)

def step (s : HeadersState τ) : HeadersLabel τ → Option (HeadersState τ)
  | .init t => some { s with locals := update s.locals t (Ycnt.tid (gettid t) (s.locals t)), initialized := true }
  | .tid t => some { s with locals := update s.locals t (Ycnt.tid (gettid t) (s.locals t)) }
  | .construct t now level data =>
    if s.initialized = true then
      (Logger.construct lt now level (s.locals t) (.new data)).map fun (c, stream_) =>
        { s with locals := update s.locals t c, records := s.records ++ [⟨t, now, level, stream_.contents⟩] }
    else none

omit [DecidableEq τ] in
def Fresh (s : HeadersState τ) : Prop := (∀ t, s.locals t = .initial) ∧ s.initialized = false ∧ s.records = []

end HeadersState

/-- Threads that start and log, under kernel thread ids `gettid`. -/
def Headers (τ : Type*) [DecidableEq τ] (lt : LocalTime) (gettid : τ → Tid) :
    Lts.System (HeadersState τ) (HeadersLabel τ) where
  init s := s.Fresh
  step s a := s.step lt gettid a

namespace HeadersState

variable {τ : Type*} [DecidableEq τ] {lt : LocalTime} {gettid : τ → Tid} {s s' : HeadersState τ}

/-! ## The caches -/

/-- Thread `t` has logged in a second other than the first of the epoch. -/
def Timed (s : HeadersState τ) (t : τ) : Prop := ∃ r ∈ s.records, r.thread = t ∧ r.now / 1000000 ≠ 0

/-- The tid caches of a thread: initial, or those of its own tid. -/
def TidCached (gettid : Tid) (c : ThreadLocals) : Prop :=
  (c.t_cachedTid = 0 ∧ c.t_tidString.take c.t_tidStringLength = List.replicate 6 0) ∨
    (c.t_cachedTid ≠ 0 ∧ c.t_tidString.take c.t_tidStringLength = tidText gettid)

/-- The time caches of a thread: initial, or those of `t_lastSecond`. -/
def TimeCached (lt : LocalTime) (timed : Prop) (c : ThreadLocals) : Prop :=
  (¬ timed ∧ c.t_lastSecond = 0 ∧ c.t_time.take 19 = List.replicate 19 0) ∨
    (timed ∧ c.t_time.take 19 = lt.format c.t_lastSecond)

/-- The caches of all threads. -/
structure Cached (lt : LocalTime) (gettid : τ → Tid) (s : HeadersState τ) : Prop where
  tid : ∀ t, TidCached (gettid t) (s.locals t)
  time : ∀ t, TimeCached lt (s.Timed t) (s.locals t)

theorem tidCached_initial (gettid : Tid) : TidCached gettid .initial := .inl ⟨rfl, rfl⟩

theorem timeCached_initial (lt : LocalTime) {timed : Prop} (h : ¬ timed) : TimeCached lt timed .initial :=
  .inl ⟨h, rfl, rfl⟩

omit [DecidableEq τ] in
theorem Fresh.cached (h : s.Fresh) : Cached lt gettid s where
  tid t := h.1 t ▸ tidCached_initial _
  time t := h.1 t ▸ timeCached_initial lt (by simp [Timed, h.2.2])

theorem TidCached.tid {gettid : Tid} {c : ThreadLocals} (h : TidCached gettid c) : TidCached gettid (Ycnt.tid gettid c) := by
  unfold Ycnt.tid cacheTid
  by_cases h0 : c.t_cachedTid = 0
  · rw [if_pos h0, if_pos h0]
    have hpos := gettid.pos
    exact .inr ⟨hpos.ne', take_snprintf _ _⟩
  · rw [if_neg h0]
    exact h

theorem tid_time (gettid : Tid) (c : ThreadLocals) :
    (Ycnt.tid gettid c).t_time = c.t_time ∧ (Ycnt.tid gettid c).t_lastSecond = c.t_lastSecond := by
  unfold Ycnt.tid cacheTid
  by_cases h0 : c.t_cachedTid = 0
  · rw [if_pos h0, if_pos h0]
    exact ⟨rfl, rfl⟩
  · rw [if_neg h0]
    exact ⟨rfl, rfl⟩

theorem TidCached.timed {gettid : Tid} {c : ThreadLocals} (h : TidCached gettid c) (lt : LocalTime) (seconds : Int) :
    TidCached gettid (Logger.timed lt seconds c) := by
  unfold Logger.timed
  split <;> exact h

/-- The time caches after a record of the second `seconds`. -/
theorem TimeCached.timed {p : Prop} {c : ThreadLocals} (h : TimeCached lt p c) (seconds : Int) :
    TimeCached lt (p ∨ seconds ≠ 0) (Logger.timed lt seconds c) := by
  unfold Logger.timed
  by_cases hs : seconds = c.t_lastSecond
  · rw [if_neg (not_not_intro hs)]
    rcases h with ⟨hp, hlast, htime⟩ | ⟨hp, htime⟩
    · exact .inl ⟨by simp [hp, hs, hlast], hlast, htime⟩
    · exact .inr ⟨.inl hp, htime⟩
  · rw [if_pos hs]
    have htake : (snprintf c.t_time (lt.format seconds)).take 19 = lt.format seconds := by
      rw [← lt.length_eq seconds]
      exact take_snprintf _ _
    refine .inr ⟨?_, htake⟩
    rcases h with ⟨-, hlast, -⟩ | ⟨hp, -⟩
    · exact .inr fun h0 => hs (h0.trans hlast.symm)
    · exact .inl hp

/-- The text of the second is right unless it is still the initial one. -/
theorem TimeCached.time_eq_iff {p : Prop} {c : ThreadLocals} (h : TimeCached lt p c) (seconds : Int) :
    (Logger.timed lt seconds c).t_time.take 19 = lt.format seconds ↔ (seconds = 0 → p) := by
  have hlast : (Logger.timed lt seconds c).t_lastSecond = seconds := by
    unfold Logger.timed
    split
    · rfl
    · rename_i hs
      exact (not_not.1 hs).symm
  rcases h.timed seconds with ⟨hp, -, htime⟩ | ⟨hp, htime⟩
  · rw [not_or, not_not] at hp
    refine iff_of_false (fun heq => ?_) fun himp => hp.1 (himp hp.2)
    have hmem : (0 : UInt8) ∈ lt.format seconds := by
      rw [← heq, htime]
      decide
    exact lt.ne_zero _ _ hmem rfl
  · refine iff_of_true (by rw [htime, hlast]) fun h0 => ?_
    exact hp.resolve_right fun hne => hne h0

theorem TidCached.tid_eq_iff {gettid : Tid} {c : ThreadLocals} (h : TidCached gettid c) :
    c.t_tidString.take c.t_tidStringLength = tidText gettid ↔ c.t_cachedTid ≠ 0 := by
  rcases h with ⟨h0, htext⟩ | ⟨h0, htext⟩
  · refine iff_of_false (fun heq => ?_) (not_not_intro h0)
    obtain ⟨c, hc⟩ := List.exists_mem_of_ne_nil _ (blankPadded_ne_nil 5 gettid.val)
    have hmem : c ∈ List.replicate 6 (0 : UInt8) := by
      rw [← htext, heq]
      exact List.mem_append_left _ hc
    exact blankPadded_ne_zero hc (List.eq_of_mem_replicate hmem)
  · exact iff_of_true htext h0

/-- A header put together from the caches is right when both are. -/
theorem header_eq_iff {p : Prop} {gettid : Tid} {c : ThreadLocals} (htid : TidCached gettid c) (htime : TimeCached lt p c)
    (now : Nat) (level : LogLevel) :
    (Logger.timed lt (now / 1000000 : Nat) c).t_time.take 19 ++ Logger.microsecondsText (now % 1000000 : Nat) ++
        (Logger.timed lt (now / 1000000 : Nat) c).t_tidString.take (Logger.timed lt (now / 1000000 : Nat) c).t_tidStringLength ++
        Logger.LogLevelName level ++ [Char.toUInt8 ' '] = Logger.header lt gettid now level ↔
      c.t_cachedTid ≠ 0 ∧ (now / 1000000 = 0 → p) := by
  have hcached : (Logger.timed lt (now / 1000000 : Nat) c).t_cachedTid = c.t_cachedTid := by
    unfold Logger.timed
    split <;> rfl
  have hlen : ((Logger.timed lt (now / 1000000 : Nat) c).t_time.take 19).length = 19 := by
    rcases htime.timed (now / 1000000 : Nat) with ⟨-, -, h⟩ | ⟨-, h⟩
    · rw [h, List.length_replicate]
    · rw [h, lt.length_eq]
  have htext := (htid.timed lt (now / 1000000 : Nat)).tid_eq_iff
  rw [hcached] at htext
  have hsecond := htime.time_eq_iff (now / 1000000 : Nat)
  rw [Int.natCast_eq_zero] at hsecond
  rw [Logger.header, List.append_left_inj, List.append_left_inj, ← htext, ← hsecond]
  constructor
  · intro h
    obtain ⟨h1, h2⟩ := List.append_inj h (by simp only [List.length_append, hlen, lt.length_eq])
    exact ⟨h2, List.append_cancel_right h1⟩
  · rintro ⟨h1, h2⟩
    rw [h1, h2]

/-! ## Runs -/

theorem step_cases {a : HeadersLabel τ} (hi : Cached lt gettid s) (h : s.step lt gettid a = some s') :
    (∃ t, (a = .init t ∨ a = .tid t) ∧ s'.records = s.records ∧
      s'.locals = update s.locals t (Ycnt.tid (gettid t) (s.locals t))) ∨
    ∃ t now level data header, a = .construct t now level data ∧
      s'.locals = update s.locals t (Logger.timed lt (now / 1000000 : Nat) (s.locals t)) ∧
      s'.records = s.records ++ [⟨t, now, level, header⟩] ∧
      (header = Logger.header lt (gettid t) now level ↔
        (s.locals t).t_cachedTid ≠ 0 ∧ (now / 1000000 = 0 → s.Timed t)) := by
  cases a with
  | init t =>
    obtain rfl := Option.some.inj h
    exact .inl ⟨t, .inl rfl, rfl, rfl⟩
  | tid t =>
    obtain rfl := Option.some.inj h
    exact .inl ⟨t, .inr rfl, rfl, rfl⟩
  | construct t now level data =>
    obtain ⟨⟨c, b⟩, hc, rfl, hb⟩ := Logger.construct_ends lt now level (s.locals t) data
    simp only [step, hc, Option.map_some, Option.ite_none_right_eq_some, Option.some.injEq] at h
    obtain ⟨-, rfl⟩ := h
    exact .inr ⟨t, now, level, data, b.contents, rfl, rfl, rfl, hb ▸ header_eq_iff (hi.tid t) (hi.time t) now level⟩

theorem cached_step {a : HeadersLabel τ} (hi : Cached lt gettid s) (h : s.step lt gettid a = some s') :
    Cached lt gettid s' := by
  rcases step_cases hi h with ⟨t, -, hr, hl⟩ | ⟨t, now, level, data, header, -, hl, hr, -⟩
  · have htimed : ∀ u, s'.Timed u = s.Timed u := fun u => by simp only [Timed, hr]
    refine ⟨fun u => ?_, fun u => ?_⟩
    · by_cases hu : u = t
      · subst hu
        simpa [hl] using (hi.tid u).tid
      · simpa [hl, hu] using hi.tid u
    · rw [htimed]
      by_cases hu : u = t
      · subst hu
        simpa [hl, TimeCached, tid_time] using hi.time u
      · simpa [hl, hu] using hi.time u
  · refine ⟨fun u => ?_, fun u => ?_⟩
    · by_cases hu : u = t
      · subst hu
        simpa [hl] using (hi.tid u).timed lt (now / 1000000 : Nat)
      · simpa [hl, hu] using hi.tid u
    · by_cases hu : u = t
      · subst hu
        have htimed : s'.Timed u ↔ s.Timed u ∨ now / 1000000 ≠ 0 := by
          simp [Timed, hr, or_and_right, exists_or]
        rw [htimed, ← Int.natCast_ne_zero]
        simpa [hl] using (hi.time u).timed (now / 1000000 : Nat)
      · have htimed : s'.Timed u ↔ s.Timed u := by
          simp [Timed, hr, or_and_right, exists_or, Ne.symm hu]
        rw [htimed]
        simpa [hl, hu] using hi.time u

/-- Every header is the one a `Logger` without caches would write. -/
def Uncached (lt : LocalTime) (gettid : τ → Tid) (s : HeadersState τ) : Prop :=
  ∀ r ∈ s.records, r.header = Logger.header lt (gettid r.thread) r.now r.level

/-- A log statement finds the tid of its thread cached, and a second in `t_time` if its own is 0. -/
def Filled (s : HeadersState τ) : HeadersLabel τ → Prop
  | .construct t now _ _ => (s.locals t).t_cachedTid ≠ 0 ∧ (now / 1000000 = 0 → s.Timed t)
  | _ => True

theorem uncached_step {a : HeadersLabel τ} (hi : Cached lt gettid s) (hu : Uncached lt gettid s)
    (h : s.step lt gettid a = some s') : Uncached lt gettid s' ↔ s.Filled a := by
  rcases step_cases hi h with ⟨t, ha, hr, -⟩ | ⟨t, now, level, data, header, rfl, -, hr, hiff⟩
  · refine iff_of_true (by rwa [Uncached, hr]) ?_
    rcases ha with rfl | rfl <;> trivial
  · rw [Filled, ← hiff]
    simp only [Uncached, hr, List.mem_append, List.mem_singleton, or_imp, forall_and, forall_eq]
    exact and_iff_right hu

/-- The headers of a run are those without caches exactly when each log statement
finds the caches of its thread filled. -/
theorem uncached_iff {t : HeadersState τ} (lt : LocalTime) (gettid : τ → Tid) (as : List (HeadersLabel τ)) (h0 : s.Fresh)
    (hr : (Headers τ lt gettid).run s as = some t) :
    (Headers τ lt gettid).Always (Uncached lt gettid) s as ↔ (Headers τ lt gettid).Guarded Filled s as := by
  refine Lts.System.always_iff_guarded (J := Cached lt gettid) (fun _ _ _ hj h => cached_step hj h)
    (fun _ _ _ hj hp h => uncached_step hj hp h) hr h0.cached ?_
  simp [Uncached, h0.2.2]

/-- Digits only. -/
def digitsTime : LocalTime where
  format _ := List.replicate 19 48
  length_eq _ := rfl
  ne_zero _ c hc := by
    rw [List.eq_of_mem_replicate hc]
    decide

def twoTids : Bool → Tid
  | false => ⟨1000, by decide, by decide⟩
  | true => ⟨1001, by decide, by decide⟩

def freshHeaders : HeadersState Bool := ⟨fun _ => .initial, false, []⟩

theorem freshHeaders_fresh : freshHeaders.Fresh := ⟨fun _ => rfl, rfl, rfl⟩

/-- Thread 0 calls `Logger::init` and logs, thread 1 is a `base::Thread`. -/
theorem uncached_two_threads : (Headers Bool digitsTime twoTids).Always (Uncached digitsTime twoTids) freshHeaders
    [.init false, .tid true, .construct false 1569500000000000 .INFO fun _ => 0,
      .construct true 1569499999999999 .INFO fun _ => 0] := by
  refine (uncached_iff digitsTime twoTids _ freshHeaders_fresh rfl).2 ?_
  refine .of_step rfl trivial (.of_step rfl trivial ?_)
  refine .of_step rfl ⟨by decide, fun h => absurd h (by decide)⟩ ?_
  exact .of_step rfl ⟨by decide, fun h => absurd h (by decide)⟩ trivial

/-- A thread that is no `base::Thread` has no text of its tid yet, and the first
second of the epoch passes for cached. -/
theorem cache_not_filled :
    (∃ s, (Headers Bool digitsTime twoTids).run freshHeaders
        [.init false, .construct true 1569500000000000 .INFO fun _ => 0] = some s ∧ ¬ Uncached digitsTime twoTids s) ∧
    ∃ s, (Headers Bool digitsTime twoTids).run freshHeaders
        [.init false, .construct false 5 .INFO fun _ => 0] = some s ∧ ¬ Uncached digitsTime twoTids s := by
  refine ⟨⟨_, rfl, fun h => ?_⟩, _, rfl, fun h => ?_⟩
  · exact absurd (h _ (List.mem_singleton_self _)) (by decide +kernel)
  · exact absurd (h _ (List.mem_singleton_self _)) (by decide +kernel)

end HeadersState

end Ycnt

import Ycnt.Base.Logger.Record
import Ycnt.Base.LogStream.Double
/-!
# Reading a log

`readLine` takes a line apart again: from the front the time, the tid and the level,
from the end the line number and the basename, and what is left is the body. A log of
records that fit is read back as the statements that wrote it.
-/

namespace Ycnt

open Function Total Numeral LogStream

namespace Logger

/-! ## The fields of a line -/

/-- What a line says. -/
structure Fields where
  time : List UInt8
  microseconds : Nat
  tid : Nat
  level : LogLevel
  body : List UInt8
  basename : List UInt8
  line : Int
  deriving DecidableEq

def readLevel (text : List UInt8) : Option LogLevel :=
  [.TRACE, .DEBUG, .INFO, .WARN, .ERROR, .FATAL].find? fun level => LogLevelName level = text

theorem readLevel_name (level : LogLevel) : readLevel (LogLevelName level) = some level := by
  cases level <;> decide

def readLine (s : List UInt8) : Option Fields := do
  let (time, s) := s.splitAt 19
  let (micros, s) := s.splitAt 8
  let (tid, s) := (s.dropWhile (· = Char.toUInt8 ' ')).span (· ≠ Char.toUInt8 ' ')
  let (level, s) := (s.drop 1).splitAt 6
  let (line, s) := (s.drop 1).reverse.span (· ≠ Char.toUInt8 ':')
  let (basename, s) := (s.drop 1).span (· ≠ Char.toUInt8 ' ')
  let microseconds ← parseNat ((micros.drop 1).take 6)
  let tid ← parseNat tid
  let level ← readLevel level
  let line ← parse line.reverse
  pure { time, microseconds, tid, level, body := (s.drop 3).reverse, basename := basename.reverse, line }

/-- All complete lines of a log. -/
def readLog (s : List UInt8) : List (Option Fields) := (s.splitOn (Char.toUInt8 '\n')).dropLast.map readLine

/-- What the line of a statement says. -/
def fields (lt : LocalTime) (gettid : Tid) (now : Nat) (body : List UInt8) (st : LogStatement) : Fields where
  time := lt.format (now / 1000000 : Nat)
  microseconds := now % 1000000
  tid := gettid.val
  level := st.level
  body := body
  basename := st.basename_
  line := st.line.toInt

theorem splitAt_append {l r : List UInt8} {n : Nat} (h : l.length = n) : (l ++ r).splitAt n = (l, r) := by
  rw [List.splitAt_eq, List.take_left' h, List.drop_left' h]

theorem readTid (gettid : Tid) (s : List UInt8) :
    ((tidText gettid ++ s).dropWhile (· = Char.toUInt8 ' ')).span (· ≠ Char.toUInt8 ' ') =
      (ofNat gettid.val, Char.toUInt8 ' ' :: s) := by
  have hdigits := (ofNat_canonical gettid.val).digits
  have hne : ∀ c ∈ ofNat gettid.val, c ≠ Char.toUInt8 ' ' := by
    rintro _ hc rfl
    exact absurd (hdigits _ hc) (by decide)
  have htext : tidText gettid ++ s = List.replicate (5 - (ofInt gettid.val).length) (Char.toUInt8 ' ') ++
      (ofNat gettid.val ++ Char.toUInt8 ' ' :: s) := by
    have hsign : sign (gettid.val : Int) = [] := if_neg (by omega)
    simp [tidText, blankPadded, ofInt, hsign]
  have hdrop : (ofNat gettid.val ++ Char.toUInt8 ' ' :: s).dropWhile (· = Char.toUInt8 ' ') =
      ofNat gettid.val ++ Char.toUInt8 ' ' :: s := by
    obtain ⟨c, ds, hcons⟩ := List.exists_cons_of_ne_nil (ofNat_canonical gettid.val).ne_nil
    have hc := hne c (hcons ▸ List.mem_cons_self)
    rw [hcons, List.cons_append, List.dropWhile_cons_of_neg (by simpa using hc)]
  rw [htext, List.dropWhile_append_of_pos (by simp), hdrop]
  exact span_append (by simpa using hne) (by simp)

theorem readLine_line (lt : LocalTime) (gettid : Tid) (now : Nat) (body : List UInt8) (st : LogStatement)
    (hbase : Char.toUInt8 ' ' ∉ st.basename_) :
    readLine (header lt gettid now st.level ++ body ++ st.place ++ ofInt st.line.toInt) =
      some (fields lt gettid now body st) := by
  have hmicro : parseNat ((((microsecondsText (now % 1000000 : Nat)).drop 1).take 6)) = some (now % 1000000) := by
    have hlen : (zeroPadded 6 (now % 1000000 : Nat)).length = 6 := zeroPadded_length (by decide) (Nat.mod_lt _ (by decide))
    rw [microsecondsText, List.cons_append, List.drop_succ_cons, List.drop_zero, List.take_left' hlen, parseNat_zeroPadded]
  have hline : ∀ c ∈ (ofInt st.line.toInt).reverse, c ≠ Char.toUInt8 ':' := by
    rintro _ hc rfl
    rcases mem_ofInt (List.mem_reverse.1 hc) with h | h
    · exact absurd h (by decide)
    · exact absurd h (by decide)
  have hrev : ∀ c ∈ st.basename_.reverse, c ≠ Char.toUInt8 ' ' := by
    rintro _ hc rfl
    exact hbase (List.mem_reverse.1 hc)
  have hshape : header lt gettid now st.level ++ body ++ st.place ++ ofInt st.line.toInt =
      lt.format (now / 1000000 : Nat) ++ (microsecondsText (now % 1000000 : Nat) ++ (tidText gettid ++
        (LogLevelName st.level ++ Char.toUInt8 ' ' :: (body ++ st.place ++ ofInt st.line.toInt)))) := by
    simp [header]
  -- The line from its end.
  have hback : (body ++ st.place ++ ofInt st.line.toInt).reverse = (ofInt st.line.toInt).reverse ++ Char.toUInt8 ':' ::
      (st.basename_.reverse ++ Char.toUInt8 ' ' :: Char.toUInt8 '-' :: Char.toUInt8 ' ' :: body.reverse) := by
    simp [LogStatement.place]
  have hfirst : ((ofInt st.line.toInt).reverse ++ Char.toUInt8 ':' ::
      (st.basename_.reverse ++ Char.toUInt8 ' ' :: Char.toUInt8 '-' :: Char.toUInt8 ' ' :: body.reverse)).span
        (· ≠ Char.toUInt8 ':') = _ := span_append (by simpa using hline) (by simp)
  have hsecond : (st.basename_.reverse ++ Char.toUInt8 ' ' :: Char.toUInt8 '-' :: Char.toUInt8 ' ' :: body.reverse).span
      (· ≠ Char.toUInt8 ' ') = _ := span_append (by simpa using hrev) (by simp)
  rw [hshape]
  simp only [readLine, splitAt_append (lt.length_eq _), splitAt_append (microsecondsText_length now), readTid,
    List.drop_succ_cons, List.drop_zero, splitAt_append (LogLevelName_length _), hback, hfirst, hsecond, hmicro,
    parseNat_ofNat, readLevel_name, List.reverse_reverse, parse_ofInt, Option.bind_eq_bind, Option.bind_some,
    Option.pure_def, fields]

theorem readLog_cons {line : List UInt8} (h : Char.toUInt8 '\n' ∉ line) (s : List UInt8) :
    readLog (line ++ Char.toUInt8 '\n' :: s) = readLine line :: readLog s := by
  rw [readLog, List.splitOn_append_cons_self_of_not_mem h, List.dropLast_cons_of_ne_nil (List.splitOn_ne_nil _ _),
    List.map_cons, readLog]

/-- Lines are found again if there is no newline within. -/
theorem readLog_lines {lines : List (List UInt8)} (h : ∀ line ∈ lines, Char.toUInt8 '\n' ∉ line) :
    readLog (lines.flatMap (· ++ [Char.toUInt8 '\n'])) = lines.map readLine := by
  induction lines with
  | nil => rfl
  | cons line lines ih =>
    obtain ⟨hline, hlines⟩ := List.forall_mem_cons.1 h
    rw [List.flatMap_cons, List.append_assoc, List.singleton_append, readLog_cons hline, ih hlines, List.map_cons]

end Logger

/-! ## Bodies -/

namespace LogStream

theorem insert_extends {l : List UInt8} (hl : l.length ≤ kSmallBufferSize) (i : Insertion) : l <+: insert l i := by
  unfold LogStream.insert
  split
  · exact List.prefix_rfl
  · rw [List.take_append, List.take_of_length_le hl]
    exact List.prefix_append _ _

theorem formatDouble_extends {b b' : Buffer} {v : FiniteDouble} {beyond : Nat → UInt32}
    (h : formatDouble b v beyond = some b') : b.contents <+: b'.contents := by
  by_cases havail : kMaxNumericSize ≤ b.avail
  · obtain ⟨len, b₁, b'', -, hcall, hcont, -⟩ := formatDouble_contents b v beyond havail
    obtain rfl := Option.some.inj (hcall.symm.trans h)
    exact hcont ▸ List.prefix_append _ _
  · unfold formatDouble formatNumeric at h
    rw [if_neg havail] at h
    obtain rfl := Option.some.inj h
    exact List.prefix_rfl

/-- Only `resetBuffer` takes anything away. -/
theorem call_extends {b b' : Buffer} {c : Call} (h : call b c = some b') (hc : c ≠ .resetBuffer) :
    b.contents <+: b'.contents := by
  cases hi : c.insertion with
  | some i =>
    obtain ⟨b'', hcall, hcont⟩ := call_insertion b hi
    obtain rfl := Option.some.inj (hcall.symm.trans h)
    exact hcont ▸ insert_extends (b.contents_length.trans_le b.cur_le) i
  | none =>
    cases c with
    | float v beyond | double v beyond => exact formatDouble_extends h
    | resetBuffer => exact absurd rfl hc
    | _ => cases hi

theorem run_extends {b b' : Buffer} {calls : List Call} (h : LogStream.run b calls = some b') (hc : .resetBuffer ∉ calls) :
    b.contents <+: b'.contents := by
  refine Lts.System.run_inv_of (M := LogStream) (I := fun b' => b.contents <+: b'.contents) (Q := fun c => c ≠ .resetBuffer)
    ?_ ?_ h List.prefix_rfl
  · intro b₁ c b₂ hne hp hstep
    exact hp.trans (call_extends hstep hne)
  · rintro _ hmem rfl
    exact hc hmem

/-- What a call adds to a stream that has room for it: its text, or of a
floating-point number as many bytes of the text of `dtoa_milo` as that says. -/
inductive Call.Shows : Call → List UInt8 → Prop where
  | insertion {c : Call} {i : Insertion} : c.insertion = some i → Shows c i.text
  | double {v : FiniteDouble} {beyond : Nat → UInt32} {b b₁ : Buffer} {p len : Nat} :
      dtoaMilo beyond v.u64 b p = some (len, b₁) → Shows (.double v beyond) ((b₁.cString p).take len)
  | float {v : FiniteFloat} {beyond : Nat → UInt32} {b b₁ : Buffer} {p len : Nat} :
      dtoaMilo beyond v.toDouble.u64 b p = some (len, b₁) → Shows (.float v beyond) ((b₁.cString p).take len)

/-- What the calls add, one after the other. -/
def Shows (calls : List Call) (body : List UInt8) : Prop :=
  ∃ texts, List.Forall₂ Call.Shows calls texts ∧ body = texts.flatten

theorem call_shows {b b' : Buffer} {c : Call} (h : call b c = some b') (hc : c ≠ .resetBuffer)
    (hroom : b'.length + kMaxNumericSize ≤ kSmallBufferSize) :
    ∃ text, c.Shows text ∧ b'.contents = b.contents ++ text := by
  have hle := (call_extends h hc).length_le
  rw [FixedBuffer.contents_length, FixedBuffer.contents_length] at hle
  have hsize : kMaxNumericSize = 32 := rfl
  have havail : kMaxNumericSize ≤ b.avail := by
    have := b.length_add_avail
    omega
  cases hi : c.insertion with
  | some i =>
    obtain ⟨b'', hcall, hcont⟩ := call_insertion b hi
    obtain rfl := Option.some.inj (hcall.symm.trans h)
    refine ⟨i.text, .insertion hi, ?_⟩
    have hdrops : ¬ i.Drops b.contents.length := by
      rintro ⟨-, hlt⟩
      rw [FixedBuffer.contents_length] at hlt
      omega
    have hlen := congrArg List.length hcont
    rw [insert, if_neg hdrops, FixedBuffer.contents_length, List.length_take] at hlen
    rw [hcont, insert, if_neg hdrops, List.take_of_length_le (by omega)]
  | none =>
    cases c with
    | float v beyond =>
      obtain ⟨len, b₁, b'', hdtoa, hcall, hcont, -⟩ := formatDouble_contents b v.toDouble beyond havail
      obtain rfl := Option.some.inj (hcall.symm.trans h)
      exact ⟨_, .float hdtoa, hcont⟩
    | double v beyond =>
      obtain ⟨len, b₁, b'', hdtoa, hcall, hcont, -⟩ := formatDouble_contents b v beyond havail
      obtain rfl := Option.some.inj (hcall.symm.trans h)
      exact ⟨_, .double hdtoa, hcont⟩
    | resetBuffer => exact absurd rfl hc
    | _ => cases hi

/-- A stream in which room is left has dropped nothing. -/
theorem run_shows {b b' : Buffer} {calls : List Call} (h : LogStream.run b calls = some b') (hc : .resetBuffer ∉ calls)
    (hroom : b'.length + kMaxNumericSize ≤ kSmallBufferSize) :
    ∃ body, Shows calls body ∧ b'.contents = b.contents ++ body := by
  induction calls generalizing b with
  | nil =>
    obtain rfl := Option.some.inj h
    exact ⟨[], ⟨[], .nil, rfl⟩, (List.append_nil _).symm⟩
  | cons c calls ih =>
    obtain ⟨b₁, h₁, h'⟩ := Lts.System.run_cons.1 h
    rw [List.mem_cons, not_or] at hc
    have hle := (run_extends h' hc.2).length_le
    rw [FixedBuffer.contents_length, FixedBuffer.contents_length] at hle
    obtain ⟨text, htext, hcont₁⟩ := call_shows h₁ (Ne.symm hc.1) (by omega)
    obtain ⟨_, ⟨texts, hall, rfl⟩, hcont⟩ := ih h' hc.2
    exact ⟨_, ⟨text :: texts, .cons htext hall, rfl⟩, by rw [hcont, hcont₁, List.append_assoc, List.flatten_cons]⟩

end LogStream

/-! ## Threads that log -/

/-- A statement whose record was handed over, with its stream before the trailer. -/
structure LoggedStatement (τ : Type*) where
  thread : τ
  now : Nat
  stream_ : Buffer
  statement : Logger.LogStatement

/-- The caches of the threads, the bytes that `asyncOutput_->append` was given, and whose they are. -/
structure RecordsState (τ : Type*) where
  locals : τ → ThreadLocals
  initialized : Bool
  log : List UInt8
  logged : List (LoggedStatement τ)

inductive RecordsLabel (τ : Type*) where
  | init (t : τ)
  | tid (t : τ)
  /-- A whole log statement, from the constructor of its `Logger` to the destructor. -/
  | log (t : τ) (now : Nat) (data : Nat → UInt8) (st : Logger.LogStatement)

namespace RecordsState

variable {τ : Type*} [DecidableEq τ] (lt : LocalTime) (gettid : τ → Tid) (logLevel : LogLevel)

def step (s : RecordsState τ) : RecordsLabel τ → Option (RecordsState τ)
  | .init t => some { s with locals := update s.locals t (Ycnt.tid (gettid t) (s.locals t)), initialized := true }
  | .tid t => some { s with locals := update s.locals t (Ycnt.tid (gettid t) (s.locals t)) }
  | .log t now data st =>
    if s.initialized = true then
      (st.write lt now (s.locals t) data).bind fun (c, stream_) => (st.destroy logLevel stream_).map fun
        | some record =>
          { s with locals := update s.locals t c, log := s.log ++ record, logged := s.logged ++ [⟨t, now, stream_, st⟩] }
        | none => { s with locals := update s.locals t c }
    else none

omit [DecidableEq τ] in
def Fresh (s : RecordsState τ) : Prop := (∀ t, s.locals t = .initial) ∧ s.initialized = false ∧ s.log = [] ∧ s.logged = []

end RecordsState

/-- Threads that log under the level `logLevel`. -/
def Records (τ : Type*) [DecidableEq τ] (lt : LocalTime) (gettid : τ → Tid) (logLevel : LogLevel) :
    Lts.System (RecordsState τ) (RecordsLabel τ) where
  init s := s.Fresh
  step s a := s.step lt gettid logLevel a

/-- What the line of a logged statement says: its body is what follows the header. -/
def LoggedStatement.fields {τ : Type*} (lt : LocalTime) (gettid : τ → Tid) (e : LoggedStatement τ) : Logger.Fields :=
  Logger.fields lt (gettid e.thread) e.now
    (e.stream_.contents.drop (Logger.header lt (gettid e.thread) e.now e.statement.level).length) e.statement

namespace RecordsState

open HeadersState Logger

variable {τ : Type*} [DecidableEq τ] {lt : LocalTime} {gettid : τ → Tid} {logLevel : LogLevel} {s s' : RecordsState τ}

/-- A log statement that fits: the tid of its thread is cached, the clock is past the first
second of the epoch, the body does not reset the stream and leaves room for the trailer,
and there is no newline in header, body and basename, nor a blank in the basename. -/
def Legible (lt : LocalTime) (s : RecordsState τ) : RecordsLabel τ → Prop
  | .log t now data st => (s.locals t).t_cachedTid ≠ 0 ∧ 1000000 ≤ now ∧ .resetBuffer ∉ st.body ∧
      Char.toUInt8 ' ' ∉ st.basename_ ∧ Char.toUInt8 '\n' ∉ st.basename_ ∧
      ∀ c stream_, st.write lt now (s.locals t) data = some (c, stream_) →
        st.Fits stream_ ∧ Char.toUInt8 '\n' ∉ stream_.contents
  | _ => True

/-- The caches of all threads, and a log of lines that say what was logged. -/
structure Readable (lt : LocalTime) (gettid : τ → Tid) (s : RecordsState τ) : Prop where
  tid : ∀ t, TidCached (gettid t) (s.locals t)
  time : ∀ t, ∃ timed, TimeCached lt timed (s.locals t)
  log : s.log = (s.logged.map fun e => e.statement.line_ e.stream_).flatMap (· ++ [Char.toUInt8 '\n'])
  newline : ∀ e ∈ s.logged, Char.toUInt8 '\n' ∉ e.statement.line_ e.stream_
  line : ∀ e ∈ s.logged, readLine (e.statement.line_ e.stream_) = some (e.fields lt gettid)
  shows : ∀ e ∈ s.logged, Shows e.statement.body (e.fields lt gettid).body

omit [DecidableEq τ] in
theorem Fresh.readable (h : s.Fresh) : Readable lt gettid s := by
  obtain ⟨hlocals, -, hlog, hlogged⟩ := h
  refine ⟨fun t => hlocals t ▸ tidCached_initial _, fun t => ⟨False, hlocals t ▸ timeCached_initial lt id⟩, ?_, ?_, ?_, ?_⟩
  · rw [hlog, hlogged, List.map_nil, List.flatMap_nil]
  · simp [hlogged]
  · simp [hlogged]
  · simp [hlogged]

omit [DecidableEq τ] in
/-- What the thread writes with its caches is the header without them, and its body. -/
theorem write_contents {st : LogStatement} {t : τ} {now : Nat} {data : Nat → UInt8} {c : ThreadLocals} {stream_ : Buffer}
    (hi : Readable lt gettid s) (hcached : (s.locals t).t_cachedTid ≠ 0) (hnow : 1000000 ≤ now)
    (hbody : .resetBuffer ∉ st.body) (h : st.write lt now (s.locals t) data = some (c, stream_)) (hfit : st.Fits stream_) :
    c = timed lt (now / 1000000 : Nat) (s.locals t) ∧
      ∃ body, Shows st.body body ∧ stream_.contents = header lt (gettid t) now st.level ++ body := by
  obtain ⟨⟨c', b⟩, hb, rfl, hcont⟩ := construct_ends lt now st.level (s.locals t) data
  obtain ⟨timed, htime⟩ := hi.time t
  rw [(header_eq_iff (hi.tid t) htime now st.level).2 ⟨hcached, fun h0 => absurd h0 (by omega)⟩] at hcont
  simp only [LogStatement.write, hb, Option.bind_eq_bind, Option.bind_some, Option.pure_def, Option.bind_eq_some_iff] at h
  obtain ⟨stream', hrun, heq⟩ := h
  obtain ⟨rfl, rfl⟩ := Prod.mk.inj (Option.some.inj heq)
  have hsize : kMaxNumericSize = 32 := rfl
  unfold LogStatement.Fits at hfit
  obtain ⟨body, hshows, hbody'⟩ := run_shows hrun hbody (by omega)
  exact ⟨rfl, body, hshows, by rw [hbody', hcont]⟩

/-- One thread's caches change. -/
theorem Readable.update_locals (hi : Readable lt gettid s) {t : τ} {c : ThreadLocals} (htid : TidCached (gettid t) c)
    (htime : ∃ timed, TimeCached lt timed c) : Readable lt gettid { s with locals := update s.locals t c } := by
  have htid' : ∀ u, TidCached (gettid u) (update s.locals t c u) :=
    (forall_update_iff s.locals fun u c => TidCached (gettid u) c).2 ⟨htid, fun u _ => hi.tid u⟩
  have htime' : ∀ u, ∃ timed, TimeCached lt timed (update s.locals t c u) :=
    (forall_update_iff s.locals fun _ c => ∃ timed, TimeCached lt timed c).2 ⟨htime, fun u _ => hi.time u⟩
  exact ⟨htid', htime', hi.log, hi.newline, hi.line, hi.shows⟩

omit [DecidableEq τ] in
theorem Readable.record (hi : Readable lt gettid s) {e : LoggedStatement τ}
    (hnewline : Char.toUInt8 '\n' ∉ e.statement.line_ e.stream_)
    (hline : readLine (e.statement.line_ e.stream_) = some (e.fields lt gettid))
    (hshows : Shows e.statement.body (e.fields lt gettid).body) :
    Readable lt gettid { s with
      log := s.log ++ (e.statement.line_ e.stream_ ++ [Char.toUInt8 '\n']), logged := s.logged ++ [e] } := by
  refine ⟨hi.tid, hi.time, ?_, ?_, ?_, ?_⟩
  · simp [hi.log]
  · rw [List.forall_mem_append]
    exact ⟨hi.newline, List.forall_mem_singleton.2 hnewline⟩
  · rw [List.forall_mem_append]
    exact ⟨hi.line, List.forall_mem_singleton.2 hline⟩
  · rw [List.forall_mem_append]
    exact ⟨hi.shows, List.forall_mem_singleton.2 hshows⟩

theorem Readable.tid_call (hi : Readable lt gettid s) (t : τ) :
    Readable lt gettid { s with locals := update s.locals t (Ycnt.tid (gettid t) (s.locals t)) } := by
  refine hi.update_locals (hi.tid t).tid ?_
  obtain ⟨timed, htime⟩ := hi.time t
  have heq := tid_time (gettid t) (s.locals t)
  exact ⟨timed, by rwa [TimeCached, heq.1, heq.2]⟩

theorem readable_step {a : RecordsLabel τ} (hi : Readable lt gettid s) (hl : s.Legible lt a)
    (h : s.step lt gettid logLevel a = some s') : Readable lt gettid s' := by
  cases a with
  | init t =>
    obtain rfl := Option.some.inj h
    have h' := hi.tid_call t
    exact ⟨h'.tid, h'.time, h'.log, h'.newline, h'.line, h'.shows⟩
  | tid t =>
    obtain rfl := Option.some.inj h
    exact hi.tid_call t
  | log t now data st =>
    obtain ⟨hcached, hnow, hbody, hblank, hbase, hfits⟩ := hl
    simp only [step, Option.ite_none_right_eq_some, Option.bind_eq_some_iff, Option.map_eq_some_iff, Prod.exists] at h
    obtain ⟨-, c, stream_, hw, record, hd, hs'⟩ := h
    obtain ⟨hfit, hnewline⟩ := hfits _ _ hw
    obtain ⟨rfl, body, hshows, hcont⟩ := write_contents hi hcached hnow hbody hw hfit
    have hlocals : Readable lt gettid { s with locals := update s.locals t (timed lt (now / 1000000 : Nat) (s.locals t)) } := by
      obtain ⟨timed, htime⟩ := hi.time t
      exact hi.update_locals ((hi.tid t).timed lt _) ⟨_, htime.timed _⟩
    by_cases hemit : st.level ≤ logLevel
    · obtain ⟨_, hd', record', rfl, hrec⟩ := LogStatement.destroy_ends hemit stream_
      obtain rfl := Option.some.inj (hd'.symm.trans hd)
      obtain rfl := hs'
      have hfields : (⟨t, now, stream_, st⟩ : LoggedStatement τ).fields lt gettid = fields lt (gettid t) now body st := by
        rw [LoggedStatement.fields, hcont, List.drop_left]
      have hread : readLine (st.line_ stream_) = some ((⟨t, now, stream_, st⟩ : LoggedStatement τ).fields lt gettid) := by
        rw [hfields, LogStatement.line_, hcont, readLine_line lt _ _ _ _ hblank]
      rw [hrec.eq_line hfit]
      refine hlocals.record (e := ⟨t, now, stream_, st⟩) (LogStatement.newline_not_mem_line hnewline hbase) hread ?_
      rwa [hfields]
    · unfold LogStatement.destroy at hd
      rw [if_neg hemit] at hd
      obtain rfl := Option.some.inj hd
      obtain rfl := hs'
      exact hlocals

/-! ## Runs -/

end RecordsState

/-- The statement of a step whose record is handed over. -/
def RecordsLabel.emits {τ : Type*} (logLevel : LogLevel) : RecordsLabel τ → Option (τ × Nat × Logger.LogStatement)
  | .log t now _ st => if st.level ≤ logLevel then some (t, now, st) else none
  | _ => none

namespace RecordsState

open HeadersState Logger

variable {τ : Type*} [DecidableEq τ] {lt : LocalTime} {gettid : τ → Tid} {logLevel : LogLevel} {s s' t : RecordsState τ}

/-- What was logged, without the streams. -/
def statements (s : RecordsState τ) : List (τ × Nat × LogStatement) := s.logged.map fun e => (e.thread, e.now, e.statement)

theorem step_statements {a : RecordsLabel τ} (h : s.step lt gettid logLevel a = some s') :
    s'.statements = s.statements ++ (a.emits logLevel).toList := by
  cases a with
  | init t | tid t =>
    obtain rfl := Option.some.inj h
    exact (List.append_nil _).symm
  | log t now data st =>
    simp only [step, Option.ite_none_right_eq_some, Option.bind_eq_some_iff, Option.map_eq_some_iff, Prod.exists] at h
    obtain ⟨-, c, stream_, -, record, hd, hs'⟩ := h
    by_cases hemit : st.level ≤ logLevel
    · obtain ⟨_, hd', record', rfl, -⟩ := LogStatement.destroy_ends hemit stream_
      obtain rfl := Option.some.inj (hd'.symm.trans hd)
      obtain rfl := hs'
      simp [statements, RecordsLabel.emits, hemit]
    · unfold LogStatement.destroy at hd
      rw [if_neg hemit] at hd
      obtain rfl := Option.some.inj hd
      obtain rfl := hs'
      simp [statements, RecordsLabel.emits, hemit]

theorem run_statements {as : List (RecordsLabel τ)} (hr : (Records τ lt gettid logLevel).run s as = some t) :
    t.statements = s.statements ++ as.filterMap (·.emits logLevel) :=
  Lts.System.run_history (fun _ _ _ => step_statements) hr

/-- A log whose statements fit is read back as those statements, in their order: the
body that is read is what the calls of the statement's body show. -/
theorem log_reads_back (as : List (RecordsLabel τ)) (h0 : s.Fresh) (hr : (Records τ lt gettid logLevel).run s as = some t)
    (hl : (Records τ lt gettid logLevel).Guarded (Legible lt) s as) :
    readLog t.log = t.logged.map (fun e => some (e.fields lt gettid)) ∧
      (∀ e ∈ t.logged, Shows e.statement.body (e.fields lt gettid).body) ∧
      t.logged.map (fun e => (e.thread, e.now, e.statement)) = as.filterMap (·.emits logLevel) := by
  have hall := hl.always (I := Readable lt gettid) (fun _ _ _ hi hl h => readable_step hi hl h) h0.readable
  have hi := hall.last hr
  refine ⟨?_, hi.shows, ?_⟩
  · rw [hi.log, readLog_lines (List.forall_mem_map.2 hi.newline), List.map_map]
    exact List.map_congr_left hi.line
  · have hstatements := run_statements hr
    rwa [statements, statements, h0.2.2.2, List.map_nil, List.nil_append] at hstatements

def freshRecords : RecordsState Bool := ⟨fun _ => .initial, false, [], []⟩

/-- A thread that has its tid cached may log it. -/
theorem short_legible {s : RecordsState Bool} (h : s.locals false = Ycnt.tid (twoTids false) .initial) :
    s.Legible digitsTime (.log false 1569500000000000 (fun _ => 0) shortStatement) := by
  have hstream : ((shortStatement.write digitsTime 1569500000000000 (Ycnt.tid (twoTids false) .initial) fun _ => 0).map
      fun r : ThreadLocals × Buffer => (r.2.length, decide (Char.toUInt8 '\n' ∈ r.2.contents))) = some (41, false) := by
    decide +kernel
  rw [Legible, h]
  refine ⟨by decide, by decide, by simp [shortStatement], by decide, by decide, fun c stream_ hw => ?_⟩
  rw [hw] at hstream
  obtain ⟨hlen, hnewline⟩ := Prod.mk.inj (Option.some.inj hstream)
  refine ⟨?_, of_decide_eq_false hnewline⟩
  unfold LogStatement.Fits
  rw [show stream_.length = 41 from hlen]
  decide

theorem shortStatement_shows {body : List UInt8} (h : Shows shortStatement.body body) : body = [Char.toUInt8 '1'] := by
  obtain ⟨texts, hall, rfl⟩ := h
  cases hall with
  | cons hcall hnil =>
    cases hnil
    cases hcall with
    | insertion hi =>
      obtain rfl := Option.some.inj hi
      rfl

/-- One line of the thread that called `Logger::init`, whose body is "1". -/
theorem log_reads_back_short : ∃ t : RecordsState Bool,
    readLog t.log = t.logged.map (fun e => some (e.fields digitsTime twoTids)) ∧
      (∀ e ∈ t.logged, (e.fields digitsTime twoTids).body = [Char.toUInt8 '1']) ∧
      t.logged.map (fun e => (e.thread, e.now, e.statement)) = [(false, 1569500000000000, shortStatement)] := by
  obtain ⟨t, hrun⟩ : ∃ t, (Records Bool digitsTime twoTids .INFO).run freshRecords
      [.init false, .log false 1569500000000000 (fun _ => 0) shortStatement] = some t := ⟨_, rfl⟩
  obtain ⟨hread, hshows, hlogged⟩ := log_reads_back _ ⟨fun _ => rfl, rfl, rfl, rfl⟩ hrun
    (.of_step rfl trivial ⟨short_legible rfl, fun _ _ => trivial⟩)
  refine ⟨t, hread, fun e he => shortStatement_shows ?_, hlogged⟩
  have hstatement : (e.thread, e.now, e.statement) ∈ t.logged.map fun e => (e.thread, e.now, e.statement) :=
    List.mem_map_of_mem he
  rw [hlogged] at hstatement
  have heq : e.statement = shortStatement := congrArg (·.2.2) (List.mem_singleton.1 hstatement)
  exact heq ▸ hshows e he

end RecordsState

end Ycnt

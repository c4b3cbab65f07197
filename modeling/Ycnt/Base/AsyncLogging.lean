import Mathlib.Algebra.GroupWithZero.Nat
import Mathlib.Data.Fin.Basic
import Mathlib.Data.List.Infix
import Ycnt.Lib.Lts
import Ycnt.Lib.Mutex
import Ycnt.Base.Buffer
/-!
# The asynchronous logger

`AsyncLogging` (`AsyncLogging.h`, `AsyncLogging.cpp`): any threads in `append`,
the back-end thread in `threadFunc`, and a thread that calls `start` and then
`stop`. A step is a lock, or what a thread does up to its next lock, unlock or
wait; what it does last before an `unlock` and the `unlock` are one step.

A logging thread is its `tid`. The buffers carry, besides their bytes, the lines
stored in them with the bucket of each, and the state carries histories of what
was appended, handed over, written and dropped. `LogFile::append` writes what it
is given; `output` is the list of its calls.
-/

namespace Ycnt

open Function

/-- What `append` is given: `len` bytes at `logline`. -/
structure Line where
  logline : Nat → UInt8
  len : Nat
  len_le : len ≤ kLargeBufferSize

def Line.bytes (l : Line) : List UInt8 := (List.range l.len).map l.logline

/-- A buffer with the lines appended to it since it was reset. -/
structure LogBuffer (n : Nat) where
  buffer : FixedBuffer kLargeBufferSize
  lines : List (Fin n × Line)

namespace LogBuffer

variable {n : Nat} (buf : LogBuffer n)

def new : LogBuffer n := ⟨.new fun _ => 0, []⟩

def append (b : Fin n) (l : Line) : LogBuffer n := ⟨(buf.buffer.append l.logline l.len).2, buf.lines ++ [(b, l)]⟩

def reset : LogBuffer n := ⟨buf.buffer.reset, []⟩

end LogBuffer

inductive LogLock (n : Nat) where
  /-- `mutex_` of `fixedBuffers_[b]`. -/
  | node (b : Fin n)
  /-- `mutex_`, which guards `frontBuffers_`. -/
  | front
  /-- The mutex of the pool's queue. -/
  | pool
  deriving DecidableEq

inductive LogThread where
  | front (tid : Nat)
  | back
  deriving DecidableEq

/-- Where a thread stands in `append`. -/
inductive AppendPc (n : Nat) where
  | idle
  | lockNode (b : Fin n) (l : Line)
  | test (b : Fin n) (l : Line)
  | lockFront (b : Fin n) (l : Line)
  | handOver (b : Fin n) (l : Line)
  | lockPool (b : Fin n) (l : Line)
  | tryPop (b : Fin n) (l : Line)
  | refill (b : Fin n) (l : Line) (buf : Option (LogBuffer n))
  | unlockNode (b : Fin n)

/-- Where the back end stands in `threadFunc`. -/
inductive BackPc (n : Nat) where
  | notStarted
  | begin
  /-- Before the test of `while (running_)`. -/
  | loopTest
  | lockWait
  | emptyTest
  /-- In `wait_for`, before its mutex is locked again. -/
  | asleep
  | woken
  | waited
  /-- The loop over `fixedBuffers_`, before bucket `i`. -/
  | harvest (i : Nat)
  | lengthTest (b : Fin n)
  | lockFront (b : Fin n)
  | handOver (b : Fin n)
  | lockPool (b : Fin n)
  | tryPop (b : Fin n)
  | refill (b : Fin n) (buf : Option (LogBuffer n))
  | unlockNode (b : Fin n)
  | lockSwap
  | swap
  | dropTest
  /-- The loop that writes, before `backBuffers_[k]`. -/
  | write (k : Nat)
  /-- The loop that recycles. -/
  | recycle
  /-- In `LogBufferPool::push(buf)`. -/
  | lockSize (buf : LogBuffer n)
  | sizeTest (buf : LogBuffer n)
  | lockPush (buf : LogBuffer n)
  | push (buf : LogBuffer n)
  | flush
  | finalFlush
  | exited

/-- `notify_all` on `cv_`. -/
def BackPc.notified {n : Nat} : BackPc n → BackPc n
  | .asleep => .woken
  | pc => pc

/-- Where the thread stands that starts and stops the logger. -/
inductive LogOwnerPc where
  | constructed
  /-- In the waits of `Thread::start` and `start`. -/
  | starting
  | started
  | notify
  | join
  | stopped
  deriving DecidableEq, Repr

/-- A call of `LogFile::append`. -/
inductive FileAppend where
  /-- With the text `Dropped log messages at <now>, <count> larger buffers`. -/
  | notice (now : String) (count : Nat)
  | buffer (bytes : List UInt8)

structure AsyncState (n : Nat) where
  mutex : LogLock n → Option LogThread
  /-- `fixedBuffers_[b].buffer_`; `none` is a null pointer. -/
  node : Fin n → Option (LogBuffer n)
  frontBuffers : List (LogBuffer n)
  backBuffers : List (LogBuffer n)
  /-- `emptyBuffers_` of the pool. -/
  emptyBuffers : List (LogBuffer n)
  running : Bool
  output : List FileAppend
  front : Nat → AppendPc n
  back : BackPc n
  owner : LogOwnerPc
  /-- The lines of each bucket, by the order in which `append` locked its mutex. -/
  taken : Fin n → List Line
  /-- The lines stored so far. -/
  appended : Fin n → List Line
  /-- The buffers handed over to `frontBuffers_`. -/
  handed : List (LogBuffer n)
  /-- The buffers of `backBuffers_` still to be written in this round. -/
  unwritten : List (LogBuffer n)
  /-- The buffers written or dropped, in the order they were handed over. -/
  retired : List (LogBuffer n)
  /-- The buffers dropped in this round, which stand behind those still to be written. -/
  dropping : List (LogBuffer n)
  written : List (LogBuffer n)

inductive LogLabel (n : Nat) where
  | start
  | stop
  /-- The next step of the thread in `start` or `stop`. -/
  | owner
  | append (tid : Nat) (l : Line)
  /-- The next step of the thread `tid` in `append`. -/
  | front (tid : Nat)
  /-- The next step of the back end; `now` is what the clock shows, should it be asked. -/
  | back (now : String)
  /-- `wait_for` returns without a notification. -/
  | timeout

namespace AsyncState

variable {n : Nat} (s : AsyncState n)

/-- A logger right after its constructor. -/
def create : AsyncState n where
  mutex _ := none
  node _ := some .new
  frontBuffers := []
  backBuffers := []
  emptyBuffers := List.replicate 4 .new
  running := false
  output := []
  front _ := .idle
  back := .notStarted
  owner := .constructed
  taken _ := []
  appended _ := []
  handed := []
  unwritten := []
  retired := []
  dropping := []
  written := []

def lock (t : LogThread) (l : LogLock n) : Option (AsyncState n) :=
  if s.mutex l = none then some { s with mutex := update s.mutex l (some t) } else none

def unlock (l : LogLock n) : AsyncState n := { s with mutex := update s.mutex l none }

def setFront (tid : Nat) (pc : AppendPc n) : AsyncState n := { s with front := update s.front tid pc }

/-- `node.buffer_->append(logline, len)` in bucket `b`, whose buffer is `buf`. -/
def store (b : Fin n) (buf : LogBuffer n) (l : Line) : AsyncState n :=
  { s with
    node := update s.node b (some (buf.append b l))
    appended := update s.appended b (s.appended b ++ [l]) }

/-- `frontBuffers_.emplace_back(node.buffer_.release())` in bucket `b`, whose buffer is `buf`. -/
def emplaceFront (b : Fin n) (buf : LogBuffer n) : AsyncState n :=
  { s with
    node := update s.node b none
    frontBuffers := s.frontBuffers ++ [buf]
    handed := s.handed ++ [buf] }

/-- The next step of thread `tid` in `append`. A null `buffer_` is never used
there (`node_isSome`). -/
def frontStep (tid : Nat) : Option (AsyncState n) :=
  match s.front tid with
  | .idle => none
  | .lockNode b l => (s.lock (.front tid) (.node b)).map fun s =>
    { s.setFront tid (.test b l) with taken := update s.taken b (s.taken b ++ [l]) }
  | .test b l => (s.node b).map fun buf =>
    if l.len < buf.buffer.avail then (s.store b buf l).setFront tid (.unlockNode b)
    else s.setFront tid (.lockFront b l)
  | .lockFront b l => (s.lock (.front tid) .front).map (·.setFront tid (.handOver b l))
  | .handOver b l => (s.node b).map fun buf =>
    { ((s.emplaceFront b buf).unlock .front).setFront tid (.lockPool b l) with back := s.back.notified }
  | .lockPool b l => (s.lock (.front tid) .pool).map (·.setFront tid (.tryPop b l))
  | .tryPop b l =>
    some { (s.unlock .pool).setFront tid (.refill b l s.emptyBuffers.head?) with emptyBuffers := s.emptyBuffers.tail }
  | .refill b l buf => some ((s.store b (buf.getD .new) l).setFront tid (.unlockNode b))
  | .unlockNode b => some ((s.unlock (.node b)).setFront tid .idle)

def setBack (pc : BackPc n) : AsyncState n := { s with back := pc }

/-- The drop of a round that took over more than 25 buffers. -/
def dropBack (now : String) : AsyncState n :=
  if s.backBuffers.length > 25 then
    { s with
      output := s.output ++ [.notice now (s.backBuffers.length - 2)]
      backBuffers := s.backBuffers.take 2
      unwritten := s.unwritten.take 2
      dropping := s.unwritten.drop 2 }
  else s

/-- The next step of the back end in `threadFunc`. -/
def backStep (now : String) : Option (AsyncState n) :=
  match s.back with
  | .notStarted => none
  | .begin => if s.running then some (s.setBack .loopTest) else none
  | .loopTest =>
    if s.running then (if s.backBuffers.isEmpty then some (s.setBack .lockWait) else none)
    else some (s.setBack .finalFlush)
  | .lockWait => (s.lock .back .front).map (·.setBack .emptyTest)
  | .emptyTest => some ((s.unlock .front).setBack (if s.frontBuffers.isEmpty then .asleep else .harvest 0))
  | .asleep => none
  | .woken => (s.lock .back .front).map (·.setBack .waited)
  | .waited => some ((s.unlock .front).setBack (.harvest 0))
  | .harvest i =>
    if h : i < n then (s.lock .back (.node ⟨i, h⟩)).map (·.setBack (.lengthTest ⟨i, h⟩)) else some (s.setBack .lockSwap)
  | .lengthTest b => (s.node b).map fun buf => s.setBack (if 0 < buf.buffer.length then .lockFront b else .unlockNode b)
  | .lockFront b => (s.lock .back .front).map (·.setBack (.handOver b))
  | .handOver b => (s.node b).map fun buf => (s.emplaceFront b buf).setBack (.lockPool b)
  | .lockPool b => (s.lock .back .pool).map (·.setBack (.tryPop b))
  | .tryPop b =>
    some { (s.unlock .pool).setBack (.refill b s.emptyBuffers.head?) with emptyBuffers := s.emptyBuffers.tail }
  | .refill b buf =>
    some { (s.unlock .front).setBack (.unlockNode b) with node := update s.node b (some (buf.getD .new)) }
  | .unlockNode b => some ((s.unlock (.node b)).setBack (.harvest (b + 1)))
  | .lockSwap => (s.lock .back .front).map (·.setBack .swap)
  | .swap =>
    some { (s.unlock .front).setBack .dropTest with
      backBuffers := s.frontBuffers
      frontBuffers := s.backBuffers
      unwritten := s.frontBuffers }
  | .dropTest => some ((s.dropBack now).setBack (.write 0))
  | .write k =>
    match s.backBuffers[k]? with
    | some buf => some { s.setBack (.write (k + 1)) with
      output := s.output ++ [.buffer buf.buffer.contents]
      backBuffers := s.backBuffers.set k buf.reset
      unwritten := s.unwritten.tail
      retired := s.retired ++ [buf]
      written := s.written ++ [buf] }
    | none => some { s.setBack .recycle with retired := s.retired ++ s.dropping, dropping := [] }
  | .recycle =>
    match s.backBuffers.getLast? with
    | some buf => some { s.setBack (.lockSize buf) with backBuffers := s.backBuffers.dropLast }
    | none => some (s.setBack .flush)
  | .lockSize buf => (s.lock .back .pool).map (·.setBack (.sizeTest buf))
  | .sizeTest buf => some ((s.unlock .pool).setBack (if s.emptyBuffers.length < 16 then .lockPush buf else .recycle))
  | .lockPush buf => (s.lock .back .pool).map (·.setBack (.push buf))
  | .push buf => some { (s.unlock .pool).setBack .recycle with emptyBuffers := s.emptyBuffers ++ [buf] }
  | .flush => some (s.setBack .loopTest)
  | .finalFlush => some (s.setBack .exited)
  | .exited => none

def ownerStep : Option (AsyncState n) :=
  match s.owner, s.back with
  -- The latches are counted down by the new thread.
  | .starting, .notStarted | .starting, .begin => none
  | .starting, _ => some { s with owner := .started }
  | .notify, pc => some { s with owner := .join, back := pc.notified }
  | .join, .exited => some { s with owner := .stopped }
  | _, _ => none

/-- `currentThread::tid() % fixedBuffers_.size()`. -/
def bucket [NeZero n] (tid : Nat) : Fin n := Fin.ofNat n tid

def step [NeZero n] : LogLabel n → Option (AsyncState n)
  | .start => if s.owner = .constructed then some { s with running := true, back := .begin, owner := .starting } else none
  | .stop => if s.owner = .started then some { s with running := false, owner := .notify } else none
  | .owner => s.ownerStep
  | .append tid l =>
    match s.front tid with
    | .idle => some (s.setFront tid (.lockNode (bucket tid) l))
    | _ => none
  | .front tid => s.frontStep tid
  | .back now => s.backStep now
  | .timeout =>
    match s.back with
    | .asleep => some (s.setBack .woken)
    | _ => none

end AsyncState

/-- A logger with `n` buckets, `n` at least 1. -/
def AsyncLogging (n : Nat) [NeZero n] : Lts.System (AsyncState n) (LogLabel n) where
  init s := s = .create
  step s a := s.step a

end Ycnt

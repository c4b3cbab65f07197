import Mathlib.Data.List.Nodup
import Ycnt.Lib.Lts
import Ycnt.Base.Schedule
import Ycnt.Base.ThreadSafeContainer
/-!
# The thread pool

`ThreadPool` and its `Worker`s (`ThreadPool.cpp`): any threads that call `run` or
`waitableRun`, one thread that calls `start` and then `stop`, and the worker
threads. Each worker has a `BoundedBlockingQueue` of its own, and the pool steps
by the sections of these queues and by the reads and writes of `running_`
between them.

Creating a thread succeeds and tasks do not throw. `φ` stands for the functions
a `std::function<void()>` can hold; `none` is an empty one. Workers are numbered
by `Fin n`, and the average run time, which only `workload()` reads, is left to
`Ycnt.Schedule`.
-/

namespace Ycnt

open Function

/-- What a worker's queue holds. -/
inductive Task (φ : Type*) where
  | initCallback (f : Option φ)
  /-- The task of the `id`th call of `run`. -/
  | submitted (id : Nat) (f : Option φ)
  /-- The `[]{}` that `Worker::stop` pushes. -/
  | wakeup

/-- The test `if (task)`. -/
def Task.callable {φ : Type*} : Task φ → Bool
  | .initCallback f => f.isSome
  | .submitted _ f => f.isSome
  | .wakeup => true

/-- The threads that use the queue of one worker. -/
inductive Caller (τ : Type*) where
  /-- The worker's own thread. -/
  | worker
  /-- The thread that stops the pool. -/
  | owner
  | client (t : τ)
  deriving DecidableEq

/-- Where a worker's thread stands. -/
inductive WorkerPc (φ : Type*) where
  | new
  /-- Created, its start not yet counted down on the latch of `Thread`. -/
  | created
  /-- Before the test of `while (running_)`. -/
  | test
  /-- In `tasks_.pop()`. -/
  | pop
  | got (task : Task φ)
  | executing (task : Task φ)
  | finished

/-- A worker, and the tasks it has begun and completed. -/
structure Worker (τ φ : Type*) where
  running : Bool
  tasks : QueueState (Caller τ) (Task φ)
  pc : WorkerPc φ
  begun : List (Task φ)
  completed : List (Task φ)

namespace Worker

variable {τ φ : Type*} [DecidableEq τ] (maxQueueSize : Nat) (wk : Worker τ φ)

/-- The constructor pushes the initial callback. -/
def create (initCallback : Option φ) : Worker τ φ where
  running := false
  tasks := { QueueState.empty with queue := [.initCallback initCallback], pushed := [.initCallback initCallback] }
  pc := .new
  begun := []
  completed := []

/-- One section of the worker's queue. -/
def queue (a : QueueLabel (Caller τ) (Task φ)) : Option (Worker τ φ) :=
  (wk.tasks.step (fun size => decide (maxQueueSize ≤ size)) a).map fun tasks => { wk with tasks := tasks }

/-- A step of `runInThread`. -/
def runInThread : Option (Worker τ φ) :=
  match wk.pc with
  | .new => none
  | .created => some { wk with pc := .test }
  | .test => some { wk with pc := if wk.running then .pop else .finished }
  | .pop =>
    (wk.queue maxQueueSize (match wk.tasks.thread .worker with | .idle => .call .worker .pop | _ => .resume .worker)).map
      fun wk' => { wk' with pc := match wk.tasks.queue with | [] => .pop | task :: _ => .got task }
  | .got task =>
    if task.callable then some { wk with pc := .executing task, begun := wk.begun ++ [task] }
    else some { wk with pc := .test }
  | .executing task => some { wk with pc := .test, completed := wk.completed ++ [task] }
  | .finished => none

end Worker

/-- Where the thread stands that starts and stops the pool. The number is that
of the worker it is at. -/
inductive OwnerPc where
  | constructed
  | starting (w : Nat)
  /-- In the `latch_.wait()` of `Thread::start`. -/
  | startWait (w : Nat)
  | started
  | stopping (w : Nat)
  /-- In `tasks_.push` of `Worker::stop`. -/
  | stopPush (w : Nat)
  | stopJoin (w : Nat)
  | stopped
  deriving DecidableEq, Repr

/-- A call of `run`, and the worker it went to. -/
structure PoolCall (n : Nat) (τ φ : Type*) where
  caller : τ
  task : Option φ
  workerId : Int
  worker : Fin n

inductive PoolLabel (n : Nat) (τ φ : Type*) where
  | start
  | stop
  /-- The next step of the thread in `start` or `stop`. -/
  | owner
  | worker (w : Fin n)
  /-- Thread `t` calls `run`; `pick` is what the policy chooses, should it be asked. -/
  | run (t : τ) (f : Option φ) (workerId : Int) (pick : Fin n)
  /-- Thread `t`, in the `push` of a `run` and woken, goes on. -/
  | resume (t : τ)
  | spurious (w : Fin n) (c : Caller τ)

structure PoolState (n : Nat) (τ φ : Type*) where
  running : Bool
  worker : Fin n → Worker τ φ
  owner : OwnerPc
  /-- The worker whose queue a thread waits for in `run`. -/
  client : τ → Option (Fin n)
  calls : List (PoolCall n τ φ)

/-- `workers_[workerId % workers_.size()]`. -/
def home {n : Nat} (workerId : Int) (pick : Fin n) : Fin n :=
  if 0 ≤ workerId then ⟨Schedule.toSize workerId % n, Nat.mod_lt _ pick.pos⟩ else pick

namespace PoolState

variable {n : Nat} {τ φ : Type*} [DecidableEq τ] (maxQueueSize : Nat) (s : PoolState n τ φ)

def setWorker (w : Fin n) (wk : Worker τ φ) : PoolState n τ φ := { s with worker := update s.worker w wk }

/-- Thread `t` has done a section of `push` on the queue of `w`, now `wk`. -/
def setClient (t : τ) (w : Fin n) (wk : Worker τ φ) : PoolState n τ φ :=
  { s.setWorker w wk with
    client := update s.client t (if (wk.tasks.thread (.client t)).pushing.isSome then some w else none) }

/-- A step of the thread in `start` or `stop`. -/
def ownerStep : Option (PoolState n τ φ) :=
  match s.owner with
  | .starting w =>
    if h : w < n then
      some { s.setWorker ⟨w, h⟩ { s.worker ⟨w, h⟩ with running := true, pc := .created } with owner := .startWait w }
    else some { s with owner := .started }
  | .startWait w =>
    if h : w < n then
      match (s.worker ⟨w, h⟩).pc with
      | .new | .created => none
      | _ => some { s with owner := .starting (w + 1) }
    else none
  | .stopping w =>
    if h : w < n then
      some { s.setWorker ⟨w, h⟩ { s.worker ⟨w, h⟩ with running := false } with owner := .stopPush w }
    else some { s with owner := .stopped }
  | .stopPush w =>
    if h : w < n then
      let a := match (s.worker ⟨w, h⟩).tasks.thread .owner with | .idle => .call .owner (.push .wakeup) | _ => .resume .owner
      ((s.worker ⟨w, h⟩).queue maxQueueSize a).map fun wk =>
        { s.setWorker ⟨w, h⟩ wk with
          owner := if (wk.tasks.thread .owner).pushing.isSome then .stopPush w else .stopJoin w }
    else none
  | .stopJoin w =>
    if h : w < n then
      match (s.worker ⟨w, h⟩).pc with
      | .finished => some { s with owner := .stopping (w + 1) }
      | _ => none
    else none
  | _ => none

def step : PoolLabel n τ φ → Option (PoolState n τ φ)
  | .start => if s.owner = .constructed then some { s with running := true, owner := .starting 0 } else none
  | .stop => if s.owner = .started then some { s with running := false, owner := .stopping 0 } else none
  | .owner => s.ownerStep maxQueueSize
  | .worker w => ((s.worker w).runInThread maxQueueSize).map (s.setWorker w)
  | .run t f workerId pick =>
    match s.client t with
    | some _ => none
    | none =>
      let w := home workerId pick
      ((s.worker w).queue maxQueueSize (.call (.client t) (.push (.submitted s.calls.length f)))).map fun wk =>
        { s.setClient t w wk with calls := s.calls ++ [⟨t, f, workerId, w⟩] }
  | .resume t => (s.client t).bind fun w =>
    ((s.worker w).queue maxQueueSize (.resume (.client t))).map (s.setClient t w)
  | .spurious w c => ((s.worker w).queue maxQueueSize (.spurious c)).map (s.setWorker w)

/-- What `newThreadPool` leaves. -/
def create (initCallback : Option φ) : PoolState n τ φ where
  running := false
  worker _ := .create initCallback
  owner := .constructed
  client _ := none
  calls := []

end PoolState

/-- `BoundedBlockingQueue(int)` turns the `size_t` it is given into an `int` and back. -/
def queueCapacity (maxQueueSize : Nat) : Nat := Schedule.toSize (Schedule.toInt maxQueueSize)

/-- A pool of `n` workers. A queue without room would block the constructor of
its worker for ever, so there is no pool then. -/
def ThreadPool (n : Nat) (τ φ : Type*) [DecidableEq τ] (initCallback : Option φ) (maxQueueSize : Nat) :
    Lts.System (PoolState n τ φ) (PoolLabel n τ φ) where
  init s := 0 < queueCapacity maxQueueSize ∧ s = .create initCallback
  step s a := s.step (queueCapacity maxQueueSize) a

/-- A task taken out of the queue that is not begun yet. -/
def WorkerPc.inHand {φ : Type*} : WorkerPc φ → List (Task φ)
  | .got task => [task]
  | _ => []

/-- The task begun and not completed yet. -/
def WorkerPc.underWay {φ : Type*} : WorkerPc φ → List (Task φ)
  | .executing task => [task]
  | _ => []

/-! ## One worker -/

namespace Worker

variable {τ φ : Type*} [DecidableEq τ] {maxQueueSize : Nat} {initCallback : Option φ} {wk wk' : Worker τ φ}

/-- A section of `push`. -/
def push (maxQueueSize : Nat) (wk : Worker τ φ) (c : Caller τ) (x : Task φ) : Worker τ φ :=
  { wk with tasks := wk.tasks.push (fun size => decide (maxQueueSize ≤ size)) c x }

/-- A worker's tasks go through it in the order of its queue, and only its own
thread takes them out. -/
structure Ok (initCallback : Option φ) (wk : Worker τ φ) : Prop where
  fifo : wk.tasks.pushed = wk.tasks.removed.map (·.2) ++ wk.tasks.queue
  head : ∃ rest, wk.tasks.pushed = .initCallback initCallback :: rest
  taken : (wk.tasks.removed.map (·.2)).filter Task.callable = wk.begun ++ wk.pc.inHand.filter Task.callable
  begun : wk.begun = wk.completed ++ wk.pc.underWay
  pushing : (wk.tasks.thread .worker).pushing = none
  popping : ∀ c, (wk.tasks.thread c).popping = true → c = .worker ∧ wk.pc = .pop

omit [DecidableEq τ] in
theorem create_ok : (create initCallback : Worker τ φ).Ok initCallback := by
  refine ⟨rfl, ⟨[], rfl⟩, rfl, rfl, rfl, fun c h => by cases h⟩

/-- What one step of the pool does to a worker. -/
inductive Step (maxQueueSize : Nat) (wk : Worker τ φ) : Worker τ φ → Prop
  | thread {wk' : Worker τ φ} (h : wk.runInThread maxQueueSize = some wk') : Step maxQueueSize wk wk'
  | push (c : Caller τ) (x : Task φ) (hc : c ≠ .worker) (h : wk.tasks.thread c = .idle ∨ wk.tasks.thread c = .pushAwake x) :
      Step maxQueueSize wk (wk.push maxQueueSize c x)
  | spurious (c : Caller τ) {wk' : Worker τ φ} (h : wk.queue maxQueueSize (.spurious c) = some wk') :
      Step maxQueueSize wk wk'
  | stop : Step maxQueueSize wk { wk with running := false }
  | start (h : wk.pc = .new) : Step maxQueueSize wk { wk with running := true, pc := .created }

theorem queue_push {c : Caller τ} {x : Task φ} (h : wk.queue maxQueueSize (.call c (.push x)) = some wk') :
    wk.tasks.thread c = .idle ∧ wk' = wk.push maxQueueSize c x := by
  obtain ⟨q, hq, rfl⟩ := Option.map_eq_some_iff.1 h
  obtain ⟨hc, rfl⟩ := QueueState.step_push_iff.1 hq
  exact ⟨hc, rfl⟩

/-- A thread other than the worker's own that was woken goes on in its `push`. -/
theorem queue_resume {c : Caller τ} (hi : wk.Ok initCallback) (hc : c ≠ .worker)
    (h : wk.queue maxQueueSize (.resume c) = some wk') :
    ∃ x, wk.tasks.thread c = .pushAwake x ∧ wk' = wk.push maxQueueSize c x := by
  obtain ⟨q, hq, rfl⟩ := Option.map_eq_some_iff.1 h
  rcases QueueState.step_resume_iff.1 hq with ⟨x, hx, rfl⟩ | ⟨hx, -⟩
  · exact ⟨x, hx, rfl⟩
  · exact absurd (hi.popping c (by simp [hx, QueuePc.popping])).1 hc

/-- The section of `pop` on the worker's own thread. -/
theorem runInThread_pop (hi : wk.Ok initCallback) (hpc : wk.pc = .pop) (h : wk.runInThread maxQueueSize = some wk') :
    (wk.tasks.thread .worker = .idle ∨ wk.tasks.thread .worker = .popAwake) ∧
      wk' = { wk with
        tasks := wk.tasks.pop .worker
        pc := match wk.tasks.queue with | [] => .pop | task :: _ => .got task } := by
  have hp := hi.pushing
  simp only [runInThread, hpc, Option.map_eq_some_iff, queue] at h
  obtain ⟨w, ⟨q, hq, rfl⟩, rfl⟩ := h
  cases ht : wk.tasks.thread .worker with
  | idle =>
    simp only [ht] at hq
    obtain ⟨-, rfl⟩ := QueueState.step_pop_iff.1 hq
    exact ⟨.inl rfl, rfl⟩
  | popAwake =>
    simp only [ht] at hq
    rcases QueueState.step_resume_iff.1 hq with ⟨x, hx, -⟩ | ⟨-, rfl⟩
    · simp [ht] at hx
    · exact ⟨.inr rfl, rfl⟩
  | popAsleep => simp [ht, QueueState.step] at hq
  | pushAsleep x => simp [ht, QueuePc.pushing] at hp
  | pushAwake x => simp [ht, QueuePc.pushing] at hp

theorem push_pushing_of_ne {c d : Caller τ} {x : Task φ} (h : d ≠ c) :
    ((wk.push maxQueueSize c x).tasks.thread d).pushing = (wk.tasks.thread d).pushing := by
  rcases QueueState.push_cases (fun size => decide (maxQueueSize ≤ size)) wk.tasks c x with ⟨-, hq⟩ | ⟨-, hq⟩
  · rw [push, hq]
    simp [h]
  · rw [push, hq]
    simp [h]

/-- A section of `push` ends asleep before a full queue, or with the task in the queue. -/
theorem push_outcome (maxQueueSize : Nat) (wk : Worker τ φ) (c : Caller τ) (x : Task φ) :
    let tasks := (wk.push maxQueueSize c x).tasks
    (maxQueueSize ≤ wk.tasks.queue.length ∧ (tasks.thread c).pushing = some x ∧
      tasks.queue = wk.tasks.queue ∧ tasks.pushed = wk.tasks.pushed) ∨
    (wk.tasks.queue.length < maxQueueSize ∧ (tasks.thread c).pushing = none ∧
      tasks.queue = wk.tasks.queue ++ [x] ∧ tasks.pushed = wk.tasks.pushed ++ [x]) := by
  rcases QueueState.push_cases (fun size => decide (maxQueueSize ≤ size)) wk.tasks c x with ⟨hf, hq⟩ | ⟨hf, hq⟩
  · exact .inl ⟨by simpa using hf, by simp [push, hq, QueuePc.pushing], by simp [push, hq], by simp [push, hq]⟩
  · refine .inr ⟨by simpa using hf, ?_, by simp [push, hq], by simp [push, hq]⟩
    simp only [push, hq, QueueState.notifyPop_pushing, update_self]
    rfl

/-- What a section of `push` adds to the tasks pushed is its own task, once it has ended. -/
theorem mem_push {c : Caller τ} {x y : Task φ} (h : y ∈ (wk.push maxQueueSize c x).tasks.pushed) :
    y ∈ wk.tasks.pushed ∨ y = x ∧ ((wk.push maxQueueSize c x).tasks.thread c).pushing = none := by
  rcases push_outcome maxQueueSize wk c x with ⟨-, -, -, hp⟩ | ⟨-, hnone, -, hp⟩
  · exact .inl (hp ▸ h)
  · rw [hp, List.mem_append, List.mem_singleton] at h
    exact h.imp_right fun hy => ⟨hy, hnone⟩

theorem push_nodup {c : Caller τ} {x : Task φ} (h : wk.tasks.pushed.Nodup) (hx : x ∉ wk.tasks.pushed) :
    (wk.push maxQueueSize c x).tasks.pushed.Nodup := by
  rcases push_outcome maxQueueSize wk c x with ⟨-, -, -, hp⟩ | ⟨-, -, -, hp⟩
  · rwa [hp]
  · rw [hp, List.nodup_append]
    refine ⟨h, List.nodup_singleton x, fun y hy z hz => ?_⟩
    rw [List.mem_singleton.1 hz]
    exact fun hyx => hx (hyx ▸ hy)

theorem push_pushing {c : Caller τ} {x y : Task φ} (h : ((wk.push maxQueueSize c x).tasks.thread c).pushing = some y) :
    y = x := by
  rcases push_outcome maxQueueSize wk c x with ⟨-, hp, -⟩ | ⟨-, hp, -⟩
  · exact Option.some.inj (h.symm.trans hp)
  · cases h.symm.trans hp

theorem push_ok {c : Caller τ} {x : Task φ} (hi : wk.Ok initCallback) (hc : c ≠ .worker) :
    (wk.push maxQueueSize c x).Ok initCallback := by
  rcases QueueState.push_cases (fun size => decide (maxQueueSize ≤ size)) wk.tasks c x with ⟨-, hq⟩ | ⟨-, hq⟩
  · rw [push, hq]
    refine ⟨hi.fifo, hi.head, hi.taken, hi.begun, by simpa [Ne.symm hc] using hi.pushing, fun u hu => ?_⟩
    by_cases huc : u = c
    · subst huc; simp [QueuePc.popping] at hu
    · exact hi.popping u (by simpa [huc] using hu)
  · rw [push, hq]
    obtain ⟨rest, hrest⟩ := hi.head
    refine ⟨by simp [hi.fifo], ⟨rest ++ [x], by simp [hrest]⟩, hi.taken, hi.begun,
      by simpa [Ne.symm hc] using hi.pushing, fun u hu => ?_⟩
    simp only [QueueState.notifyPop_popping] at hu
    by_cases huc : u = c
    · subst huc; simp [QueuePc.popping] at hu
    · exact hi.popping u (by simpa [huc] using hu)

theorem spurious_ok {c : Caller τ} (hi : wk.Ok initCallback) (h : wk.queue maxQueueSize (.spurious c) = some wk') :
    wk'.Ok initCallback := by
  obtain ⟨q, hq, rfl⟩ := Option.map_eq_some_iff.1 h
  rcases QueueState.step_spurious_iff.1 hq with ⟨x, hx, rfl⟩ | ⟨hx, rfl⟩
  · refine ⟨hi.fifo, hi.head, hi.taken, hi.begun, ?_, fun u hu => ?_⟩
    · by_cases huc : .worker = c
      · subst huc; simpa [hx, QueuePc.pushing] using hi.pushing
      · simpa [huc] using hi.pushing
    · by_cases huc : u = c
      · subst huc; simp [QueuePc.popping] at hu
      · exact hi.popping u (by simpa [huc] using hu)
  · have hc := hi.popping c (by simp [hx, QueuePc.popping])
    refine ⟨hi.fifo, hi.head, hi.taken, hi.begun, ?_, fun u hu => ?_⟩
    · rw [← hc.1]; simp [QueuePc.pushing]
    · by_cases huc : u = c
      · exact huc ▸ hc
      · exact hi.popping u (by simpa [huc] using hu)

theorem runInThread_ok (hi : wk.Ok initCallback) (h : wk.runInThread maxQueueSize = some wk') : wk'.Ok initCallback := by
  have hidle : wk.pc ≠ .pop → ∀ c, (wk.tasks.thread c).popping = false := fun hne c => by
    cases hp : (wk.tasks.thread c).popping with
    | false => rfl
    | true => exact absurd (hi.popping c hp).2 hne
  have htaken := hi.taken
  have hbegun := hi.begun
  cases hpc : wk.pc with
  | new => simp [runInThread, hpc] at h
  | finished => simp [runInThread, hpc] at h
  | created =>
    simp only [runInThread, hpc, Option.some.injEq] at h
    subst h
    rw [hpc] at htaken hbegun hidle
    exact ⟨hi.fifo, hi.head, htaken, hbegun, hi.pushing, fun c hc => by simp [hidle] at hc⟩
  | test =>
    simp only [runInThread, hpc, Option.some.injEq] at h
    subst h
    rw [hpc] at htaken hbegun hidle
    refine ⟨hi.fifo, hi.head, ?_, ?_, hi.pushing, fun c hc => by simp [hidle] at hc⟩
    · dsimp only; split <;> exact htaken
    · dsimp only; split <;> exact hbegun
  | got task =>
    simp only [runInThread, hpc] at h
    rw [hpc] at htaken hbegun hidle
    split at h
    all_goals
      rename_i hcall
      simp only [Option.some.injEq] at h
      subst h
      simp only [WorkerPc.inHand, List.filter_singleton, hcall, cond_true, cond_false] at htaken
      refine ⟨hi.fifo, hi.head, ?_, ?_, hi.pushing, fun c hc => by simp [hidle] at hc⟩
    · simpa [WorkerPc.inHand] using htaken
    · simpa [WorkerPc.underWay] using hbegun
    · simpa [WorkerPc.inHand] using htaken
    · simpa [WorkerPc.underWay] using hbegun
  | executing task =>
    simp only [runInThread, hpc, Option.some.injEq] at h
    subst h
    rw [hpc] at htaken hbegun hidle
    exact ⟨hi.fifo, hi.head, htaken, by simpa [WorkerPc.underWay] using hbegun, hi.pushing,
      fun c hc => by simp [hidle] at hc⟩
  | pop =>
    obtain ⟨-, rfl⟩ := runInThread_pop hi hpc h
    rw [hpc] at htaken hbegun
    rcases QueueState.pop_cases wk.tasks .worker with ⟨hq, hpop⟩ | ⟨task, rest, hq, hpop⟩
    · simp only [hpop, hq]
      refine ⟨by simpa [hq] using hi.fifo, hi.head, htaken, hbegun, by simp [QueuePc.pushing], fun c hc => ?_⟩
      by_cases huc : c = .worker
      · exact ⟨huc, rfl⟩
      · exact ⟨(hi.popping c (by simpa [huc] using hc)).1, rfl⟩
    · simp only [hpop, hq]
      refine ⟨by simp [hi.fifo, hq], hi.head, ?_, hbegun, by simp [QueuePc.pushing], fun c hc => ?_⟩
      · simpa [WorkerPc.inHand] using htaken
      · by_cases huc : c = .worker
        · subst huc; simp [QueuePc.popping] at hc
        · exact absurd (hi.popping c (by simpa [huc] using hc)).1 huc

/-- The worker's own thread pushes nothing. -/
theorem runInThread_quiet (hi : wk.Ok initCallback) (h : wk.runInThread maxQueueSize = some wk') :
    wk.pc ≠ .new ∧ wk'.tasks.pushed = wk.tasks.pushed ∧
      ∀ c, (wk'.tasks.thread c).pushing = (wk.tasks.thread c).pushing := by
  cases hpc : wk.pc with
  | new => simp [runInThread, hpc] at h
  | finished => simp [runInThread, hpc] at h
  | created | test | executing task =>
    simp only [runInThread, hpc, Option.some.injEq] at h
    subst h
    exact ⟨by simp, rfl, fun c => rfl⟩
  | got task =>
    simp only [runInThread, hpc] at h
    split at h <;> (simp only [Option.some.injEq] at h; subst h; exact ⟨by simp, rfl, fun c => rfl⟩)
  | pop =>
    obtain ⟨-, rfl⟩ := runInThread_pop hi hpc h
    refine ⟨by simp, ?_, fun c => ?_⟩
    · rcases QueueState.pop_cases wk.tasks .worker with ⟨-, hp⟩ | ⟨x, rest, -, hp⟩ <;> rw [hp]
    · by_cases hc : c = .worker
      · subst hc
        rw [hi.pushing]
        rcases QueueState.pop_cases wk.tasks .worker with ⟨-, hp⟩ | ⟨x, rest, -, hp⟩ <;> simp [hp, QueuePc.pushing]
      · rcases QueueState.pop_cases wk.tasks .worker with ⟨-, hp⟩ | ⟨x, rest, -, hp⟩ <;> simp [hp, hc]

theorem spurious_quiet {c : Caller τ} (h : wk.queue maxQueueSize (.spurious c) = some wk') :
    wk'.pc = wk.pc ∧ wk'.tasks.queue = wk.tasks.queue ∧ wk'.tasks.pushed = wk.tasks.pushed ∧
      ∀ d, (wk'.tasks.thread d).pushing = (wk.tasks.thread d).pushing := by
  obtain ⟨q, hq, rfl⟩ := Option.map_eq_some_iff.1 h
  rcases QueueState.step_spurious_iff.1 hq with ⟨x, hx, rfl⟩ | ⟨hx, rfl⟩
  all_goals
    refine ⟨rfl, rfl, rfl, fun d => ?_⟩
    by_cases hd : d = c
    · subst hd; simp [hx, QueuePc.pushing]
    · simp [hd]

theorem step_ok (hi : wk.Ok initCallback) (h : Step maxQueueSize wk wk') : wk'.Ok initCallback := by
  cases h with
  | thread h => exact runInThread_ok hi h
  | push c x hc h => exact push_ok hi hc
  | spurious c h => exact spurious_ok hi h
  | stop => exact ⟨hi.fifo, hi.head, hi.taken, hi.begun, hi.pushing, hi.popping⟩
  | start h =>
    have htaken := hi.taken
    have hbegun := hi.begun
    rw [h] at htaken hbegun
    refine ⟨hi.fifo, hi.head, htaken, hbegun, hi.pushing, fun c hc => ?_⟩
    have := (hi.popping c hc).2
    simp [h] at this

end Worker

/-! ## The pool -/

/-- The owner's wake-up task is in the queue of worker `w`. -/
def OwnerPc.Past (w : Nat) : OwnerPc → Prop
  | .stopping v => w < v
  | .stopPush v => w < v
  | .stopJoin v => w ≤ v
  | .stopped => True
  | _ => False

/-- The owner has not started worker `w` yet. -/
def OwnerPc.Unstarted (w : Nat) : OwnerPc → Prop
  | .constructed => True
  | .starting v => v ≤ w
  | .startWait v => v < w
  | _ => False

namespace PoolState

variable {n : Nat} {τ φ : Type*} [DecidableEq τ] {maxQueueSize : Nat} {initCallback : Option φ}
variable {s s' : PoolState n τ φ} {w : Fin n}

/-- What caller `c` is about to push into the queue of worker `w`. -/
def pushing (s : PoolState n τ φ) (w : Fin n) (c : Caller τ) : Option (Task φ) :=
  ((s.worker w).tasks.thread c).pushing

/-- Caller `c` may be about to push `x` into the queue of worker `w`. -/
def Owned (s : PoolState n τ φ) (w : Fin n) : Caller τ → Task φ → Prop
  | .worker, _ => False
  | .owner, x => x = .wakeup ∧ s.owner = .stopPush w
  | .client t, x => s.client t = some w ∧ ∃ id f i, x = .submitted id f ∧ s.calls[id]? = some ⟨t, f, i, w⟩

/-- `x` may be among the tasks pushed to worker `w`. -/
def Landed (initCallback : Option φ) (s : PoolState n τ φ) (w : Fin n) : Task φ → Prop
  | .initCallback f => f = initCallback
  | .submitted id f => ∃ t i, s.calls[id]? = some ⟨t, f, i, w⟩
  | .wakeup => s.owner.Past w

structure Inv (initCallback : Option φ) (s : PoolState n τ φ) : Prop where
  ok : ∀ w, (s.worker w).Ok initCallback
  unstarted : ∀ w : Fin n, s.owner.Unstarted w → (s.worker w).pc = .new
  owned : ∀ w c x, s.pushing w c = some x → s.Owned w c x ∧ x ∉ (s.worker w).tasks.pushed
  landed : ∀ w, ∀ x ∈ (s.worker w).tasks.pushed, s.Landed initCallback w x
  nodup : ∀ w, (s.worker w).tasks.pushed.Nodup
  home : ∀ c ∈ s.calls, 0 ≤ c.workerId → (c.worker : Nat) = Schedule.toSize c.workerId % n

omit [DecidableEq τ] in
theorem create_inv : (create initCallback : PoolState n τ φ).Inv initCallback := by
  refine ⟨fun _ => Worker.create_ok, fun _ _ => rfl, fun w c x h => ?_, fun w x hx => ?_, fun w => ?_, ?_⟩
  · simp [pushing, create, Worker.create, QueueState.empty, QueuePc.pushing] at h
  · obtain rfl : x = .initCallback initCallback := by simpa [create, Worker.create] using hx
    trivial
  · simp [create, Worker.create]
  · simp [create]

omit [DecidableEq τ] in
/-- A task has one caller. -/
theorem Owned.unique {c d : Caller τ} {x : Task φ} (hc : s.Owned w c x) (hd : s.Owned w d x) : c = d := by
  cases c with
  | worker => exact hc.elim
  | owner =>
    cases d with
    | worker => exact hd.elim
    | owner => rfl
    | client t =>
      obtain ⟨-, id, f, i, hx, -⟩ := hd
      exact absurd (hc.1.symm.trans hx) (by simp)
  | client t =>
    obtain ⟨-, id, f, i, rfl, hcall⟩ := hc
    cases d with
    | worker => exact hd.elim
    | owner => exact absurd hd.1 (by simp)
    | client u =>
      obtain ⟨-, id', f', i', hx, hcall'⟩ := hd
      simp only [Task.submitted.injEq] at hx
      obtain ⟨rfl, rfl⟩ := hx
      simp only [hcall, Option.some.injEq, PoolCall.mk.injEq] at hcall'
      rw [hcall'.1]

omit [DecidableEq τ] in
/-- The owner goes on without a `push`. -/
theorem Inv.setOwner {o : OwnerPc} {running : Bool} (hi : s.Inv initCallback) (ho : ∀ w, s.owner ≠ .stopPush w)
    (hpast : ∀ w, s.owner.Past w → o.Past w) (hun : ∀ w, o.Unstarted w → s.owner.Unstarted w) :
    ({ s with running := running, owner := o } : PoolState n τ φ).Inv initCallback := by
  refine ⟨hi.ok, fun w hw => hi.unstarted w (hun w hw), fun w c x hx => ⟨?_, (hi.owned w c x hx).2⟩,
    fun w x hx => ?_, hi.nodup, hi.home⟩
  · have h := (hi.owned w c x hx).1
    cases c with
    | worker => exact h
    | owner => exact absurd h.2 (ho w)
    | client t => exact h
  · have h := hi.landed w x hx
    cases x with
    | initCallback f => exact h
    | submitted id f => exact h
    | wakeup => exact hpast w h

omit [DecidableEq τ] in
@[simp] theorem setWorker_self (wk : Worker τ φ) : (s.setWorker w wk).worker w = wk := update_self ..

omit [DecidableEq τ] in
theorem setWorker_of_ne {v : Fin n} (wk : Worker τ φ) (h : v ≠ w) : (s.setWorker w wk).worker v = s.worker v :=
  update_of_ne h ..

/-- A worker takes a step in which nothing is pushed. -/
theorem Inv.setWorker {wk : Worker τ φ} (hi : s.Inv initCallback) (hs : Worker.Step maxQueueSize (s.worker w) wk)
    (hpushed : wk.tasks.pushed = (s.worker w).tasks.pushed)
    (hpushing : ∀ c, (wk.tasks.thread c).pushing = s.pushing w c)
    (hnew : s.owner.Unstarted w → wk.pc = .new) : (s.setWorker w wk).Inv initCallback := by
  have hpushed' : ∀ v, ((s.setWorker w wk).worker v).tasks.pushed = (s.worker v).tasks.pushed := fun v => by
    by_cases hvw : v = w
    · subst hvw; rw [setWorker_self, hpushed]
    · rw [setWorker_of_ne _ hvw]
  refine ⟨fun v => ?_, fun v hv => ?_, fun v c x hx => ?_, fun v x hx => ?_, fun v => ?_, hi.home⟩
  · by_cases hvw : v = w
    · subst hvw; rw [setWorker_self]; exact Worker.step_ok (hi.ok v) hs
    · rw [setWorker_of_ne _ hvw]; exact hi.ok v
  · by_cases hvw : v = w
    · subst hvw; rw [setWorker_self]; exact hnew hv
    · rw [setWorker_of_ne _ hvw]; exact hi.unstarted v hv
  · rw [hpushed']
    by_cases hvw : v = w
    · subst hvw
      rw [pushing, setWorker_self, hpushing] at hx
      exact hi.owned v c x hx
    · rw [pushing, setWorker_of_ne _ hvw] at hx
      exact hi.owned v c x hx
  · rw [hpushed'] at hx
    exact hi.landed v x hx
  · rw [hpushed']
    exact hi.nodup v

/-- A section of `push` of a task that is in no queue and that no other caller
pushes. `s'` is the state after it: whoever may push or has pushed still may or
has, and so for the task itself. -/
theorem Inv.push {c : Caller τ} {x : Task φ} (hi : s.Inv initCallback) (hc : c ≠ .worker)
    (hx : x ∉ (s.worker w).tasks.pushed) (hother : ∀ d, d ≠ c → s.pushing w d ≠ some x)
    (hworker : s'.worker = update s.worker w ((s.worker w).push maxQueueSize c x))
    (hun : ∀ v, s'.owner.Unstarted v → s.owner.Unstarted v)
    (hcarry : ∀ v d y, v ≠ w ∨ d ≠ c → s.pushing v d = some y → s'.Owned v d y)
    (hland : ∀ v y, s.Landed initCallback v y → s'.Landed initCallback v y)
    (hown : s'.pushing w c = some x → s'.Owned w c x) (hin : s'.pushing w c = none → s'.Landed initCallback w x)
    (hhome : ∀ e ∈ s'.calls, 0 ≤ e.workerId → (e.worker : Nat) = Schedule.toSize e.workerId % n) :
    s'.Inv initCallback := by
  have hw : s'.worker w = (s.worker w).push maxQueueSize c x := by rw [hworker, update_self]
  have hne : ∀ v, v ≠ w → s'.worker v = s.worker v := fun v hv => by rw [hworker, update_of_ne hv]
  have hok : ∀ v, (s'.worker v).Ok initCallback := fun v => by
    by_cases hvw : v = w
    · subst hvw; rw [hw]; exact Worker.push_ok (hi.ok v) hc
    · rw [hne v hvw]; exact hi.ok v
  have hnew : ∀ v : Fin n, s'.owner.Unstarted v → (s'.worker v).pc = .new := fun v hv => by
    by_cases hvw : v = w
    · subst hvw
      have hpc : ((s.worker v).push maxQueueSize c x).pc = (s.worker v).pc := rfl
      rw [hw, hpc]
      exact hi.unstarted v (hun v hv)
    · rw [hne v hvw]; exact hi.unstarted v (hun v hv)
  have hpushing : ∀ v d, v ≠ w ∨ d ≠ c → s'.pushing v d = s.pushing v d := fun v d hvd => by
    by_cases hvw : v = w
    · subst hvw
      rw [PoolState.pushing, hw, Worker.push_pushing_of_ne (hvd.resolve_left fun h => h rfl), PoolState.pushing]
    · rw [PoolState.pushing, hne v hvw, PoolState.pushing]
  have hpushed : ∀ v y, y ∈ (s'.worker v).tasks.pushed →
      y ∈ (s.worker v).tasks.pushed ∨ v = w ∧ y = x ∧ s'.pushing w c = none := fun v y hy => by
    by_cases hvw : v = w
    · subst hvw
      rw [hw] at hy
      rw [PoolState.pushing, hw]
      exact (Worker.mem_push hy).imp_right fun h => ⟨rfl, h⟩
    · exact .inl (hne v hvw ▸ hy)
  refine ⟨hok, hnew, fun v d y hy => ?_, fun v y hy => ?_, fun v => ?_, hhome⟩
  · by_cases hvd : v ≠ w ∨ d ≠ c
    · have hy' := hpushing v d hvd ▸ hy
      refine ⟨hcarry v d y hvd hy', fun hmem => ?_⟩
      rcases hpushed v y hmem with hmem | ⟨rfl, rfl, -⟩
      · exact (hi.owned v d y hy').2 hmem
      · exact hother d (hvd.resolve_left fun h => h rfl) hy'
    · simp only [not_or, not_not] at hvd
      obtain ⟨rfl, rfl⟩ := hvd
      obtain rfl : y = x := by
        rw [PoolState.pushing, hw] at hy
        exact Worker.push_pushing hy
      refine ⟨hown hy, fun hmem => ?_⟩
      rcases hpushed v y hmem with hmem | ⟨-, -, hnone⟩
      · exact hx hmem
      · cases hnone.symm.trans hy
  · rcases hpushed v y hy with hy | ⟨rfl, rfl, hnone⟩
    · exact hland v y (hi.landed v y hy)
    · exact hin hnone
  · by_cases hvw : v = w
    · subst hvw
      rw [hw]
      exact Worker.push_nodup (hi.nodup v) hx
    · rw [hne v hvw]
      exact hi.nodup v

theorem home_eq {workerId : Int} {pick : Fin n} (h : 0 ≤ workerId) :
    (home workerId pick : Nat) = Schedule.toSize workerId % n := by
  simp [Ycnt.home, h]

/-- The section of `push` in a call of `run`, new or woken. -/
theorem client_push_inv {t : τ} {x : Task φ} {calls : List (PoolCall n τ φ)} (hi : s.Inv initCallback)
    (hclient : ∀ v y, s.pushing v (.client t) = some y → v = w ∧ y = x)
    (hx : x ∉ (s.worker w).tasks.pushed) (hother : ∀ d, d ≠ .client t → s.pushing w d ≠ some x)
    (hcalls : s.calls <+: calls) (hcall : ∃ id f i, x = .submitted id f ∧ calls[id]? = some ⟨t, f, i, w⟩)
    (hhome : ∀ e ∈ calls, 0 ≤ e.workerId → (e.worker : Nat) = Schedule.toSize e.workerId % n) :
    ({ s.setClient t w ((s.worker w).push maxQueueSize (.client t) x) with calls := calls } : PoolState n τ φ).Inv
      initCallback := by
  have hget : ∀ {id : Nat} {e : PoolCall n τ φ}, s.calls[id]? = some e → calls[id]? = some e := fun h => by
    obtain ⟨rest, rfl⟩ := hcalls
    rw [List.getElem?_append_left (List.getElem?_eq_some_iff.1 h).1, h]
  refine hi.push (by simp) hx hother rfl (fun v hv => hv) (fun v d y hvd hy => ?_) (fun v y hy => ?_) (fun hp => ?_)
    (fun _ => ?_) hhome
  · have ho := (hi.owned v d y hy).1
    cases d with
    | worker => exact ho
    | owner => exact ho
    | client u =>
      by_cases hut : u = t
      · subst hut
        obtain ⟨rfl, rfl⟩ := hclient v y hy
        simp at hvd
      · obtain ⟨hv, id, f, i, rfl, hc⟩ := ho
        refine ⟨?_, id, f, i, rfl, hget hc⟩
        simpa [setClient, hut] using hv
  · cases y with
    | initCallback f => exact hy
    | submitted id f =>
      obtain ⟨u, i, hc⟩ := hy
      exact ⟨u, i, hget hc⟩
    | wakeup => exact hy
  · refine ⟨?_, hcall⟩
    simp only [pushing, setClient, setWorker_self] at hp
    simp [setClient, hp]
  · obtain ⟨id, f, i, rfl, hc⟩ := hcall
    exact ⟨t, i, hc⟩

/-- The section of `push` in `Worker::stop`. -/
theorem owner_push_inv (hi : s.Inv initCallback) (ho : s.owner = .stopPush w) {wk : Worker τ φ}
    (hwk : wk = (s.worker w).push maxQueueSize .owner .wakeup) :
    ({ s.setWorker w wk with
      owner := if (wk.tasks.thread .owner).pushing.isSome then .stopPush w else .stopJoin w } : PoolState n τ φ).Inv
        initCallback := by
  subst hwk
  have hfresh : .wakeup ∉ (s.worker w).tasks.pushed := fun h => by
    have := hi.landed w _ h
    simp [Landed, OwnerPc.Past, ho] at this
  have howner : s.Owned w .owner .wakeup := ⟨rfl, ho⟩
  refine hi.push (by simp) hfresh (fun d hd h => hd ((hi.owned w d _ h).1.unique howner)) rfl (fun v hv => ?_)
    (fun v d y hvd hy => ?_) (fun v y hy => ?_) (fun hp => ?_) (fun hp => ?_) hi.home
  · dsimp only at hv
    split at hv <;> exact hv.elim
  · have hd := (hi.owned v d y hy).1
    cases d with
    | worker => exact hd
    | owner =>
      have hvw : v = w := by simpa [ho, Fin.ext_iff, eq_comm] using hd.2
      simp [hvw] at hvd
    | client u => exact hd
  · cases y with
    | initCallback f => exact hy
    | submitted id f => exact hy
    | wakeup =>
      simp only [Landed, ho] at hy ⊢
      split
      · exact hy
      · exact Nat.le_of_lt hy
  · simp only [pushing, setWorker_self] at hp
    exact ⟨rfl, by simp [hp]⟩
  · simp only [pushing, setWorker_self] at hp
    simp [Landed, OwnerPc.Past, hp]

/-- What the owner does in a step. -/
inductive OwnerStep (maxQueueSize : Nat) (s : PoolState n τ φ) : PoolState n τ φ → Prop
  | start {w : Fin n} : s.owner = .starting w →
      OwnerStep maxQueueSize s
        ({ s with owner := .startWait w }.setWorker w { s.worker w with running := true, pc := .created })
  | awaited {w : Fin n} : s.owner = .startWait w → (s.worker w).pc ≠ .new →
      OwnerStep maxQueueSize s { s with owner := .starting (w + 1) }
  | started {w : Nat} : n ≤ w → s.owner = .starting w → OwnerStep maxQueueSize s { s with owner := .started }
  | stop {w : Fin n} : s.owner = .stopping w →
      OwnerStep maxQueueSize s ({ s with owner := .stopPush w }.setWorker w { s.worker w with running := false })
  | push {w : Fin n} {wk : Worker τ φ} : s.owner = .stopPush w → wk = (s.worker w).push maxQueueSize .owner .wakeup →
      OwnerStep maxQueueSize s { s.setWorker w wk with
        owner := if (wk.tasks.thread .owner).pushing.isSome then .stopPush w else .stopJoin w }
  | joined {w : Fin n} : s.owner = .stopJoin w → (s.worker w).pc = .finished →
      OwnerStep maxQueueSize s { s with owner := .stopping (w + 1) }
  | stopped {w : Nat} : n ≤ w → s.owner = .stopping w → OwnerStep maxQueueSize s { s with owner := .stopped }

theorem ownerStep_cases (hi : s.Inv initCallback) (h : s.ownerStep maxQueueSize = some s') :
    OwnerStep maxQueueSize s s' := by
  cases ho : s.owner with
  | constructed => simp [ownerStep, ho] at h
  | started => simp [ownerStep, ho] at h
  | stopped => simp [ownerStep, ho] at h
  | starting w =>
    simp only [ownerStep, ho] at h
    split at h
    · rename_i hw
      simp only [Option.some.injEq] at h
      exact h ▸ .start (w := ⟨w, hw⟩) ho
    · rename_i hw
      simp only [Option.some.injEq] at h
      exact h ▸ .started (Nat.not_lt.1 hw) ho
  | startWait w =>
    simp only [ownerStep, ho] at h
    split at h
    · rename_i hw
      split at h
      · cases h
      · cases h
      · rename_i hne _
        simp only [Option.some.injEq] at h
        exact h ▸ .awaited (w := ⟨w, hw⟩) ho hne
    · cases h
  | stopping w =>
    simp only [ownerStep, ho] at h
    split at h
    · rename_i hw
      simp only [Option.some.injEq] at h
      exact h ▸ .stop (w := ⟨w, hw⟩) ho
    · rename_i hw
      simp only [Option.some.injEq] at h
      exact h ▸ .stopped (Nat.not_lt.1 hw) ho
  | stopPush w =>
    simp only [ownerStep, ho] at h
    split at h
    · rename_i hw
      obtain ⟨wk, hwk, rfl⟩ := Option.map_eq_some_iff.1 h
      refine .push (w := ⟨w, hw⟩) ho ?_
      cases ht : (s.worker ⟨w, hw⟩).tasks.thread .owner with
      | idle =>
        simp only [ht] at hwk
        exact (Worker.queue_push hwk).2
      | _ =>
        simp only [ht] at hwk
        obtain ⟨x, hx, rfl⟩ := Worker.queue_resume (hi.ok _) (by simp) hwk
        have := (hi.owned ⟨w, hw⟩ .owner x (by simp [pushing, hx, QueuePc.pushing])).1.1
        rw [this]
    · cases h
  | stopJoin w =>
    simp only [ownerStep, ho] at h
    split at h
    · rename_i hw
      split at h
      · rename_i hpc
        simp only [Option.some.injEq] at h
        exact h ▸ .joined (w := ⟨w, hw⟩) ho hpc
      · cases h
    · cases h

theorem ownerStep_inv (hi : s.Inv initCallback) (h : s.ownerStep maxQueueSize = some s') : s'.Inv initCallback := by
  cases ownerStep_cases hi h with
  | @start w ho =>
    have hi' : ({ s with owner := .startWait w } : PoolState n τ φ).Inv initCallback := by
      refine hi.setOwner (fun v hv => by simp [ho] at hv) (fun v hv => by simp [ho, OwnerPc.Past] at hv) fun v hv => ?_
      simp only [ho, OwnerPc.Unstarted] at hv ⊢
      exact hv.le
    refine hi'.setWorker (show Worker.Step maxQueueSize _ _ from .start ?_) rfl (fun c => rfl) fun hv => ?_
    · exact hi.unstarted w (by simp [ho, OwnerPc.Unstarted])
    · simp [OwnerPc.Unstarted] at hv
  | awaited ho =>
    refine hi.setOwner (by simp [ho]) (by simp [ho, OwnerPc.Past]) fun v hv => ?_
    simp only [ho, OwnerPc.Unstarted] at hv ⊢
    omega
  | started _ ho => exact hi.setOwner (by simp [ho]) (by simp [ho, OwnerPc.Past]) (by simp [OwnerPc.Unstarted])
  | @stop w ho =>
    have hi' : ({ s with owner := .stopPush w } : PoolState n τ φ).Inv initCallback := by
      refine hi.setOwner (fun v hv => by simp [ho] at hv) (fun v hv => ?_) fun v hv => hv.elim
      simpa [ho, OwnerPc.Past] using hv
    exact hi'.setWorker (show Worker.Step maxQueueSize _ _ from .stop) rfl (fun c => rfl) fun hv => hv.elim
  | push ho hwk => exact owner_push_inv hi ho hwk
  | joined ho =>
    refine hi.setOwner (by simp [ho]) (fun v hv => ?_) (by simp [OwnerPc.Unstarted])
    simp only [ho, OwnerPc.Past] at hv ⊢
    omega
  | stopped _ ho => exact hi.setOwner (by simp [ho]) (by simp [OwnerPc.Past]) (by simp [OwnerPc.Unstarted])

theorem step_inv {a : PoolLabel n τ φ} (hi : s.Inv initCallback) (h : s.step maxQueueSize a = some s') :
    s'.Inv initCallback := by
  cases a with
  | start =>
    simp only [step, Option.ite_none_right_eq_some, Option.some.injEq] at h
    obtain ⟨ho, rfl⟩ := h
    exact hi.setOwner (by simp [ho]) (by simp [ho, OwnerPc.Past]) (by simp [ho, OwnerPc.Unstarted])
  | stop =>
    simp only [step, Option.ite_none_right_eq_some, Option.some.injEq] at h
    obtain ⟨ho, rfl⟩ := h
    exact hi.setOwner (by simp [ho]) (by simp [ho, OwnerPc.Past]) (by simp [OwnerPc.Unstarted])
  | owner => exact ownerStep_inv hi h
  | worker w =>
    obtain ⟨wk, hwk, rfl⟩ := Option.map_eq_some_iff.1 h
    obtain ⟨hpc, hp, hc⟩ := Worker.runInThread_quiet (hi.ok w) hwk
    exact hi.setWorker (.thread hwk) hp hc fun hu => absurd (hi.unstarted w hu) hpc
  | run t f workerId pick =>
    simp only [step] at h
    split at h
    · cases h
    · rename_i ht
      obtain ⟨wk, hwk, rfl⟩ := Option.map_eq_some_iff.1 h
      obtain ⟨-, rfl⟩ := Worker.queue_push hwk
      have hnone : s.calls[s.calls.length]? = none := List.getElem?_eq_none le_rfl
      refine client_push_inv hi (fun v y hy => ?_) (fun hx => ?_) (fun d hd hy => ?_) (List.prefix_append _ _)
        ⟨_, f, workerId, rfl, by simp⟩ fun e he => ?_
      · have := (hi.owned v _ y hy).1.1
        simp [ht] at this
      · obtain ⟨u, i, hc⟩ := hi.landed _ _ hx
        simp at hc
      · have ho := (hi.owned _ d _ hy).1
        cases d with
        | worker => exact ho
        | owner => exact absurd ho.1 (by simp)
        | client u =>
          obtain ⟨-, id, f', i, hx, hc⟩ := ho
          simp only [Task.submitted.injEq] at hx
          rw [← hx.1, hnone] at hc
          cases hc
      · rcases List.mem_append.1 he with he | he
        · exact hi.home e he
        · rw [List.mem_singleton.1 he]
          exact home_eq
  | resume t =>
    obtain ⟨w, hw, h⟩ := Option.bind_eq_some_iff.1 h
    obtain ⟨wk, hwk, rfl⟩ := Option.map_eq_some_iff.1 h
    obtain ⟨x, hx, rfl⟩ := Worker.queue_resume (hi.ok w) (by simp) hwk
    have hxp : s.pushing w (.client t) = some x := by simp [pushing, hx, QueuePc.pushing]
    obtain ⟨ho, hfresh⟩ := hi.owned w _ x hxp
    refine client_push_inv hi (fun v y hy => ?_) hfresh (fun d hd hy => hd ((hi.owned w d x hy).1.unique ho))
      (List.prefix_refl _) ho.2 hi.home
    obtain rfl : v = w := Option.some.inj ((hi.owned v _ y hy).1.1.symm.trans ho.1)
    exact ⟨rfl, Option.some.inj (hy.symm.trans hxp)⟩
  | spurious w c =>
    obtain ⟨wk, hwk, rfl⟩ := Option.map_eq_some_iff.1 h
    obtain ⟨hpc, -, hp, hc⟩ := Worker.spurious_quiet hwk
    exact hi.setWorker (.spurious c hwk) hp hc fun hu => hpc.trans (hi.unstarted w hu)

omit [DecidableEq τ] in
/-- If no task pushed to it is empty, a worker has begun the first of them, in order. -/
theorem Inv.begun_pushed (hi : s.Inv initCallback) (hcall : ∀ x ∈ (s.worker w).tasks.pushed, x.callable = true) :
    (s.worker w).begun <+: (s.worker w).tasks.pushed := by
  have hok := hi.ok w
  have htaken : (s.worker w).tasks.removed.map (·.2) <+: (s.worker w).tasks.pushed := ⟨_, hok.fifo.symm⟩
  have hfilter : ((s.worker w).tasks.removed.map (·.2)).filter Task.callable = (s.worker w).tasks.removed.map (·.2) :=
    List.filter_eq_self.2 fun x hx => hcall x (htaken.subset hx)
  exact List.IsPrefix.trans ⟨_, (hfilter.symm.trans hok.taken).symm⟩ htaken

omit [DecidableEq τ] in
theorem Inv.callable (hi : s.Inv initCallback) (hinit : initCallback.isSome) (hcalls : ∀ e ∈ s.calls, e.task.isSome)
    (x : Task φ) (hx : x ∈ (s.worker w).tasks.pushed) : x.callable = true := by
  have hl := hi.landed w x hx
  cases x with
  | initCallback f => exact hl ▸ hinit
  | submitted id f =>
    obtain ⟨t, i, hc⟩ := hl
    exact hcalls _ (List.mem_of_getElem? hc)
  | wakeup => rfl

omit [DecidableEq τ] in
/-- Only the last of the tasks begun may be under way. -/
theorem Inv.completed_of_begun (hi : s.Inv initCallback) {rest : List (Task φ)} {x : Task φ}
    (hp : (s.worker w).begun <+: .initCallback initCallback :: rest) (hx : x ∈ (s.worker w).begun)
    (hne : x ≠ .initCallback initCallback) : .initCallback initCallback ∈ (s.worker w).completed := by
  have hbegun := (hi.ok w).begun
  have hlen : (s.worker w).pc.underWay.length ≤ 1 := by cases (s.worker w).pc <;> simp [WorkerPc.underWay]
  cases hc : (s.worker w).completed with
  | nil =>
    rw [hc, List.nil_append] at hbegun
    rw [← hbegun] at hlen
    obtain ⟨tail, htail⟩ := hp
    cases hb : (s.worker w).begun with
    | nil => simp [hb] at hx
    | cons y ys =>
      obtain rfl : ys = [] := by simpa [hb] using hlen
      simp only [hb, List.cons_append, List.cons.injEq, List.mem_singleton] at htail hx
      exact absurd (hx.trans htail.1) hne
  | cons y ys =>
    obtain ⟨tail, htail⟩ := hp
    simp only [hbegun, hc, List.cons_append, List.cons.injEq] at htail
    simp [htail.1]

end PoolState

namespace ThreadPool

variable {n : Nat} {τ φ : Type*} [DecidableEq τ] {initCallback : Option φ} {maxQueueSize : Nat} {s : PoolState n τ φ}

theorem reachable_inv (h : (ThreadPool n τ φ initCallback maxQueueSize).Reachable s) : s.Inv initCallback :=
  h.inv (I := PoolState.Inv initCallback) (fun _ h0 => h0.2 ▸ PoolState.create_inv) fun _ _ _ hi hs =>
    PoolState.step_inv hi hs

/-- Each worker begins a prefix of the initial callback and the tasks pushed to
it, in the order they were pushed in, each once. A task goes to its own worker
only, and begins after the worker's initial callback has completed. -/
theorem begun_in_order (h : (ThreadPool n τ φ initCallback maxQueueSize).Reachable s) (hinit : initCallback.isSome)
    (hcalls : ∀ e ∈ s.calls, e.task.isSome) :
    (∀ w, ∃ rest, (s.worker w).tasks.pushed = .initCallback initCallback :: rest ∧
      (s.worker w).begun <+: .initCallback initCallback :: rest ∧ (s.worker w).begun.Nodup ∧
      ∀ x ∈ (s.worker w).begun, x ≠ .initCallback initCallback → .initCallback initCallback ∈ (s.worker w).completed) ∧
    ∀ w id f, .submitted id f ∈ (s.worker w).begun →
      (∀ v g, .submitted id g ∈ (s.worker v).begun → v = w) ∧
      ∃ e, s.calls[id]? = some e ∧ e.task = f ∧
        (0 ≤ e.workerId → e.workerId < 2 ^ 31 → (w : Int) = e.workerId % n) := by
  have hi := reachable_inv h
  have hbegun : ∀ w, (s.worker w).begun <+: (s.worker w).tasks.pushed := fun w =>
    hi.begun_pushed fun x hx => hi.callable hinit hcalls x hx
  have hcall : ∀ w id f, .submitted id f ∈ (s.worker w).begun → ∃ t i, s.calls[id]? = some ⟨t, f, i, w⟩ :=
    fun w id f hx => hi.landed w _ ((hbegun w).subset hx)
  refine ⟨fun w => ?_, fun w id f hx => ⟨fun v g hy => ?_, ?_⟩⟩
  · obtain ⟨rest, hrest⟩ := (hi.ok w).head
    have hp := hrest ▸ hbegun w
    exact ⟨rest, hrest, hp, (hi.nodup w).sublist (hbegun w).sublist, fun x hx hne => hi.completed_of_begun hp hx hne⟩
  · obtain ⟨t, i, hc⟩ := hcall w id f hx
    obtain ⟨u, j, hc'⟩ := hcall v id g hy
    simp only [hc, Option.some.injEq, PoolCall.mk.injEq] at hc'
    exact hc'.2.2.2.symm
  · obtain ⟨t, i, hc⟩ := hcall w id f hx
    refine ⟨_, hc, rfl, fun h0 h1 => ?_⟩
    have hw := hi.home _ (List.mem_of_getElem? hc) h0
    dsimp only at hw h0 h1 ⊢
    rw [← Schedule.toSize_of_nonneg h0 h1]
    exact_mod_cast hw

/-- One worker, started, that has come to the first task submitted to it. -/
theorem begun_in_order_one : ∃ s, (ThreadPool 1 Nat Nat (some 0) 4).run (.create (some 0))
      [.start, .owner, .worker 0, .owner, .owner, .worker 0, .worker 0, .worker 0, .worker 0, .run 5 (some 7) 3 0,
        .worker 0, .worker 0, .worker 0] = some s ∧
    .submitted 0 (some 7) ∈ (s.worker 0).begun ∧ .initCallback (some 0) ∈ (s.worker 0).completed := by
  obtain ⟨s, hs, hb, hcalls⟩ : ∃ s, (ThreadPool 1 Nat Nat (some 0) 4).run (.create (some 0))
      [.start, .owner, .worker 0, .owner, .owner, .worker 0, .worker 0, .worker 0, .worker 0, .run 5 (some 7) 3 0,
        .worker 0, .worker 0, .worker 0] = some s ∧
      (s.worker 0).begun = [.initCallback (some 0), .submitted 0 (some 7)] ∧ s.calls = [⟨5, some 7, 3, 0⟩] :=
    ⟨_, rfl, rfl, rfl⟩
  have h0 : (ThreadPool 1 Nat Nat (some 0) 4).init (.create (some 0)) := ⟨by decide, rfl⟩
  have hr := (Lts.System.Reachable.init h0).run hs
  obtain ⟨hw, -⟩ := begun_in_order hr rfl (by simp [hcalls])
  obtain ⟨rest, -, -, -, hdone⟩ := hw 0
  exact ⟨s, hs, by simp [hb], hdone (.submitted 0 (some 7)) (by simp [hb]) (by simp)⟩

end ThreadPool

end Ycnt

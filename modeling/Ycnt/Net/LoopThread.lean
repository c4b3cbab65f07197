import Ycnt.Net.EpollPoller
import Ycnt.Base.Logger
/-!
# Calls on an event loop's channels from any thread

The functions of `Channel` and `Acceptor::listen` (`Acceptor.cpp`), called by any
threads on the channels of one `EventLoop`, with the checks of
`EventLoop::assertInLoopThread` on their way to the poller. `τ` stands for the
threads, `threadId` is the one the loop was created in, and a channel on which
`listen` is called is the `acceptChannel_` of an `Acceptor`.

`assertInLoopThread` is a FATAL log statement, so it does what `~Logger` does
with one. A call is taken apart where a check stands: the steps of other threads
come in between.
-/

namespace Ycnt.Net

open Function Linux LoggerState

/-- Where a thread stands in a call. -/
inductive CallPc (κ : Type*) where
  | idle
  /-- At the check of `Acceptor::listen`, before `Socket::listen`, before `enableReading`. -/
  | listen (c : κ)
  | listenSocket (c : κ)
  | enableReading (c : κ)
  /-- At the check of `EventLoop::updateChannel`, at the one of `EpollPoller::updateChannel`, past it. -/
  | updateChannel (c : κ)
  | pollerUpdate (c : κ)
  | updateRest (c : κ)
  /-- At the check of `EventLoop::removeChannel`, at the one of `EpollPoller::removeChannel`, past it. -/
  | removeChannel (c : κ)
  | pollerRemove (c : κ)
  | removeRest (c : κ)
  deriving DecidableEq

inductive ThreadOp (κ : Type*) where
  | enableReading (c : κ)
  | enableWriting (c : κ)
  | disableReading (c : κ)
  | disableWriting (c : κ)
  | disableAll (c : κ)
  | remove (c : κ)
  | listen (c : κ)

inductive ThreadLabel (τ κ : Type*) where
  | call (t : τ) (op : ThreadOp κ)
  /-- Up to the next check. `fault` is the system call's own failure, where there is one. -/
  | next (t : τ) (fault : Option Errno)
  | abort (t : τ)
  /-- The loop's thread polls. -/
  | poll (result : Option (List (Int × BitVec 32)))

/-- What the FATAL statements of these calls say. -/
inductive FatalRecord (τ : Type*) where
  | wrongThread (created current : τ)
  | listenError (e : Errno)

/-- An event loop with its channels, the calls under way and the logger. -/
structure LoopThreads (τ κ : Type*) extends LoopState κ where
  /-- `listening_` of the `Acceptor` of a channel. -/
  listening : κ → Bool
  call : τ → CallPc κ
  logger : LoggerState τ (FatalRecord τ)

/-- The thread whose step it is. -/
def ThreadLabel.thread {τ κ : Type*} (threadId : τ) : ThreadLabel τ κ → τ
  | .call t _ | .next t _ | .abort t => t
  | .poll _ => threadId

namespace LoopThreads

variable {τ κ : Type*} [DecidableEq τ] [DecidableEq κ]
variable (logLevel : LogLevel) (threadId : τ) (fd : κ → Int) (s : LoopThreads τ κ)

def goto (t : τ) (pc : CallPc κ) : LoopThreads τ κ := { s with call := update s.call t pc }

omit [DecidableEq κ] in
def fatal (t : τ) (record : FatalRecord τ) : LoopThreads τ κ :=
  { s with logger := s.logger.fatal logLevel t record }

omit [DecidableEq κ] in
def assertInLoopThread (t : τ) : LoopThreads τ κ :=
  if t ≠ threadId then s.fatal logLevel t (.wrongThread threadId t) else s

/-- `enableReading` and the like as far as `EventLoop::updateChannel`. -/
def changeEvents (t : τ) (c : κ) (f : BitVec 32 → BitVec 32) : LoopThreads τ κ :=
  let l := s.setChannel c { s.channel c with events := f (s.channel c).events }
  { s with
    toLoopState := l.setChannel c { l.channel c with addedToLoop := true }
    call := update s.call t (.updateChannel c) }

/-- A call as far as its first check. -/
def enter (t : τ) : ThreadOp κ → Option (LoopThreads τ κ)
  | .enableReading c => some (s.changeEvents t c (· ||| kReadEvent))
  | .enableWriting c => some (s.changeEvents t c (· ||| kWriteEvent))
  | .disableReading c => some (s.changeEvents t c (· &&& ~~~ kReadEvent))
  | .disableWriting c => some (s.changeEvents t c (· &&& ~~~ kWriteEvent))
  | .disableAll c => some (s.changeEvents t c fun _ => kNoneEvent)
  | .remove c =>
    if (s.channel c).isNoneEvent then
      some { s with
        toLoopState := s.setChannel c { s.channel c with addedToLoop := false }
        call := update s.call t (.removeChannel c) }
    else none
  | .listen c => some (s.goto t (.listen c))

def next (t : τ) (fault : Option Errno) : Option (LoopThreads τ κ) :=
  let checked := s.assertInLoopThread logLevel threadId t
  match s.call t with
  | .idle => none
  | .listen c => some (checked.goto t (.listenSocket c))
  | .listenSocket c =>
    let s := { s with listening := update s.listening c true }
    match fault with
    | none => some (s.goto t (.enableReading c))
    | some e => some ((s.fatal logLevel t (.listenError e)).goto t (.enableReading c))
  | .enableReading c => some (s.changeEvents t c (· ||| kReadEvent))
  | .updateChannel c => some (checked.goto t (.pollerUpdate c))
  | .pollerUpdate c => some (checked.goto t (.updateRest c))
  | .updateRest c =>
    (EpollPoller.updateChannel fd fault s.toLoopState c).map fun l => { s.goto t .idle with toLoopState := l }
  | .removeChannel c =>
    -- The assertion stands between the two checks.
    if s.eventHandling = true ∧ s.currentActiveChannel ≠ some c ∧ c ∈ s.activeChannels then none
    else some (checked.goto t (.pollerRemove c))
  | .pollerRemove c => some (checked.goto t (.removeRest c))
  | .removeRest c =>
    (EpollPoller.removeChannel fd fault s.toLoopState c).map fun l => { s.goto t .idle with toLoopState := l }

def Running (t : τ) : Prop := s.logger.Running t

omit [DecidableEq τ] [DecidableEq κ] in
instance (t : τ) : Decidable (s.Running t) := inferInstanceAs (Decidable (s.logger.Running t))

def step : ThreadLabel τ κ → Option (LoopThreads τ κ)
  | .call t op => if s.Running t ∧ s.call t = .idle then s.enter t op else none
  | .next t fault => if s.Running t then s.next logLevel threadId fd t fault else none
  | .abort t => (s.logger.step logLevel (.abort t)).map fun l => { s with logger := l }
  | .poll result =>
    if s.Running threadId ∧ s.call threadId = .idle then
      (s.toLoopState.step fd none (.poll result)).map fun l => { s with toLoopState := l }
    else none

end LoopThreads

/-- Calls from any threads after `Logger::init` has set `logLevel`, on channels in any state. -/
def Threads (τ κ : Type*) [DecidableEq τ] [DecidableEq κ] (logLevel : LogLevel) (threadId : τ) (fd : κ → Int) :
    Lts.System (LoopThreads τ κ) (ThreadLabel τ κ) where
  init s := (∀ t, s.call t = .idle) ∧ s.logger.Fresh
  step s a := s.step logLevel threadId fd a

variable {τ κ : Type*} [DecidableEq τ] [DecidableEq κ] {logLevel : LogLevel} {threadId : τ} {fd : κ → Int}

/-! ## The loop's own calls -/

/-- Before any call. -/
def LoopThreads.init : LoopThreads τ κ :=
  { LoopState.init with
    listening := fun _ => false
    call := fun _ => .idle
    logger := .empty }

/-- The operation on the poller that a call is. -/
def ThreadOp.loopOp : ThreadOp κ → Option (LoopOp κ)
  | .enableReading c => some (.enableReading c)
  | .enableWriting c => some (.enableWriting c)
  | .disableReading c => some (.disableReading c)
  | .disableWriting c => some (.disableWriting c)
  | .disableAll c => some (.disableAll c)
  | .remove c => some (.remove c)
  | .listen _ => none

namespace LoopThreads

variable {s s' : LoopThreads τ κ} {t u : τ} {a : ThreadLabel τ κ}

omit [DecidableEq κ] in
@[simp] theorem assertInLoopThread_self : s.assertInLoopThread logLevel threadId threadId = s := by
  simp [assertInLoopThread]

omit [DecidableEq κ] in
@[simp] theorem goto_running {pc : CallPc κ} : (s.goto t pc).Running u ↔ s.Running u := Iff.rfl

omit [DecidableEq κ] in
@[simp] theorem goto_call {pc : CallPc κ} : (s.goto t pc).call t = pc := update_self ..

omit [DecidableEq κ] in
@[simp] theorem goto_goto {pc pc' : CallPc κ} : (s.goto t pc).goto t pc' = s.goto t pc' := by
  simp [goto]

omit [DecidableEq κ] in
@[simp] theorem goto_toLoopState {pc : CallPc κ} : (s.goto t pc).toLoopState = s.toLoopState := rfl

theorem run_updateChannel (c : κ) (fault : Option Errno) (hr : s.Running threadId)
    (hc : s.call threadId = .updateChannel c) :
    (Threads τ κ logLevel threadId fd).run s [.next threadId none, .next threadId none, .next threadId fault] =
      (EpollPoller.updateChannel fd fault s.toLoopState c).map fun l =>
        { s.goto threadId .idle with toLoopState := l } := by
  have h1 : s.step logLevel threadId fd (.next threadId none) = some (s.goto threadId (.pollerUpdate c)) := by
    simp [step, hr, next, hc]
  have h2 : (s.goto threadId (.pollerUpdate c)).step logLevel threadId fd (.next threadId none) =
      some (s.goto threadId (.updateRest c)) := by
    simp [step, hr, next]
  simp only [Lts.System.run, Threads, h1, h2, Option.bind_some]
  simp [step, hr, next]

theorem run_removeChannel (c : κ) (fault : Option Errno) (hr : s.Running threadId)
    (hc : s.call threadId = .removeChannel c) :
    (Threads τ κ logLevel threadId fd).run s [.next threadId none, .next threadId none, .next threadId fault] =
      (EventLoop.removeChannel fd fault s.toLoopState c).map fun l =>
        { s.goto threadId .idle with toLoopState := l } := by
  by_cases ha : s.eventHandling = true ∧ s.currentActiveChannel ≠ some c ∧ c ∈ s.activeChannels
  · simp [Lts.System.run, Threads, step, hr, next, hc, ha, EventLoop.removeChannel]
  · have h1 : s.step logLevel threadId fd (.next threadId none) = some (s.goto threadId (.pollerRemove c)) := by
      simp only [step, if_pos hr, next, hc, if_neg ha, assertInLoopThread_self]
    have h2 : (s.goto threadId (.pollerRemove c)).step logLevel threadId fd (.next threadId none) =
        some (s.goto threadId (.removeRest c)) := by
      simp [step, hr, next]
    simp only [Lts.System.run, Threads, h1, h2, Option.bind_some, EventLoop.removeChannel, if_neg ha]
    simp [step, hr, next]

omit [DecidableEq κ] in
theorem call_returned (hc : s.call threadId = .idle) (pc : CallPc κ) :
    update (update s.call threadId pc) threadId .idle = s.call := by
  rw [update_idem, ← hc, update_eq_self]

/-- On the loop's thread the checks do nothing, and a call that no other thread
interrupts is the operation of the poller's model. -/
theorem run_alone {op : ThreadOp κ} {o : LoopOp κ} (fault : Option Errno) (ho : op.loopOp = some o)
    (hr : s.Running threadId) (hc : s.call threadId = .idle) :
    (Threads τ κ logLevel threadId fd).run s
        [.call threadId op, .next threadId none, .next threadId none, .next threadId fault] =
      (s.toLoopState.step fd fault o).map fun l => { s with toLoopState := l } := by
  have henter : (Threads τ κ logLevel threadId fd).step s (.call threadId op) = s.enter threadId op :=
    if_pos ⟨hr, hc⟩
  have hchange : ∀ c f, (Threads τ κ logLevel threadId fd).run (s.changeEvents threadId c f)
      [.next threadId none, .next threadId none, .next threadId fault] =
        (Channel.changeEvents fd fault s.toLoopState c f).map fun l => { s with toLoopState := l } := fun c f => by
    have hr' : (s.changeEvents threadId c f).Running threadId := hr
    rw [run_updateChannel c fault hr' (by simp [changeEvents])]
    simp only [changeEvents, goto, call_returned hc]
    rfl
  rw [Lts.System.run, henter]
  cases op with
  | enableReading c | enableWriting c | disableReading c | disableWriting c | disableAll c =>
    obtain rfl := Option.some.inj ho
    exact hchange c _
  | remove c =>
    obtain rfl := Option.some.inj ho
    by_cases hn : (s.channel c).isNoneEvent = true
    · simp only [enter, if_pos hn, Option.bind_some]
      rw [run_removeChannel c fault (by exact hr) (by simp)]
      simp only [goto, call_returned hc, LoopState.step, Channel.remove, if_pos hn]
    · simp [enter, hn, LoopState.step, Channel.remove]
  | listen c => cases ho

end LoopThreads

/-! ## Confinement -/

/-- The next step makes a check. -/
def CallPc.AtCheck : CallPc κ → Prop
  | .listen _ | .updateChannel _ | .pollerUpdate _ | .removeChannel _ | .pollerRemove _ => True
  | _ => False

/-- The call, if there is one, has made no check yet. -/
def CallPc.AtEntry : CallPc κ → Prop
  | .idle | .listen _ | .updateChannel _ | .removeChannel _ => True
  | _ => False

namespace LoopThreads

variable {s s' : LoopThreads τ κ} {t u : τ} {a : ThreadLabel τ κ}

/-- `channels_`, the flags of the channels and the kernel's interest set are the same. -/
structure SamePoller (s s' : LoopThreads τ κ) : Prop where
  channels_eq : s'.channels = s.channels
  flag_eq : ∀ c, (s'.channel c).flag = (s.channel c).flag
  kernel_eq : s'.kernel = s.kernel

omit [DecidableEq τ] [DecidableEq κ] in
theorem SamePoller.of_eq (h : s'.toLoopState = s.toLoopState) : SamePoller s s' := by
  constructor <;> simp [h]

/-- A step of a thread other than the loop's changes nothing of the poller's, and
its check stops it: what is left of its call is `abort`. -/
def Confined (threadId : τ) (s : LoopThreads τ κ) (a : ThreadLabel τ κ) (s' : LoopThreads τ κ) : Prop :=
  a.thread threadId ≠ threadId → SamePoller s s' ∧
    ∀ t fault, a = .next t fault → (s.call t).AtCheck → s'.logger.thread t = .stopping

/-- The step is a check of a thread other than the loop's. -/
def WrongCheck (threadId : τ) (s : LoopThreads τ κ) (a : ThreadLabel τ κ) : Prop :=
  ∃ t fault, a = .next t fault ∧ t ≠ threadId ∧ (s.call t).AtCheck

/-- A thread other than the loop's that no FATAL statement has stopped is past no check. -/
def NonePast (threadId : τ) (s : LoopThreads τ κ) : Prop :=
  ∀ t ≠ threadId, s.logger.thread t = .running → (s.call t).AtEntry

/-- Where a step leaves the threads other than `t`. -/
def SameFor (t : τ) (s s' : LoopThreads τ κ) : Prop :=
  ∀ u ≠ t, s'.call u = s.call u ∧ s'.logger.thread u = s.logger.thread u

omit [DecidableEq τ] [DecidableEq κ] in
theorem SameFor.trans {s'' : LoopThreads τ κ} (h : SameFor t s s') (h' : SameFor t s' s'') : SameFor t s s'' :=
  fun u hu => ⟨(h' u hu).1.trans (h u hu).1, (h' u hu).2.trans (h u hu).2⟩

omit [DecidableEq κ] in
theorem goto_sameFor (pc : CallPc κ) : SameFor t s (s.goto t pc) := fun _ hu => ⟨update_of_ne hu .., rfl⟩

theorem changeEvents_sameFor (c : κ) (f : BitVec 32 → BitVec 32) : SameFor t s (s.changeEvents t c f) :=
  fun _ hu => ⟨update_of_ne hu .., rfl⟩

omit [DecidableEq κ] in
@[simp] theorem fatal_logger (record : FatalRecord τ) :
    (s.fatal logLevel t record).logger = s.logger.fatal logLevel t record := rfl

omit [DecidableEq κ] in
theorem fatal_sameFor (record : FatalRecord τ) : SameFor t s (s.fatal logLevel t record) := fun u hu => by
  refine ⟨rfl, ?_⟩
  rw [fatal_logger, LoggerState.fatal_thread]
  split
  · exact update_of_ne hu ..
  · rfl

omit [DecidableEq κ] in
theorem assertInLoopThread_sameFor : SameFor t s (s.assertInLoopThread logLevel threadId t) := by
  unfold assertInLoopThread
  split
  · exact fatal_sameFor _
  · exact fun _ _ => ⟨rfl, rfl⟩

theorem enter_sameFor {op : ThreadOp κ} (h : s.enter t op = some s') : SameFor t s s' := by
  cases op with
  | enableReading c | enableWriting c | disableReading c | disableWriting c | disableAll c =>
    obtain rfl := Option.some.inj h
    exact changeEvents_sameFor c _
  | remove c =>
    simp only [enter, Option.ite_none_right_eq_some, Option.some.injEq] at h
    obtain ⟨-, rfl⟩ := h
    exact fun _ hu => ⟨update_of_ne hu .., rfl⟩
  | listen c =>
    obtain rfl := Option.some.inj h
    exact goto_sameFor _

theorem next_sameFor {fault : Option Errno} (h : s.next logLevel threadId fd t fault = some s') : SameFor t s s' := by
  unfold next at h
  cases hc : s.call t with
  | idle => simp [hc] at h
  | listen c | updateChannel c | pollerUpdate c | pollerRemove c =>
    simp only [hc, Option.some.injEq] at h
    subst h
    exact assertInLoopThread_sameFor.trans (goto_sameFor _)
  | removeChannel c =>
    simp only [hc, Option.ite_none_left_eq_some, Option.some.injEq] at h
    obtain ⟨-, rfl⟩ := h
    exact assertInLoopThread_sameFor.trans (goto_sameFor _)
  | listenSocket c =>
    have hs : SameFor t s { s with listening := update s.listening c true } := fun _ _ => ⟨rfl, rfl⟩
    cases fault with
    | none =>
      simp only [hc, Option.some.injEq] at h
      subst h
      exact hs.trans (goto_sameFor _)
    | some e =>
      simp only [hc, Option.some.injEq] at h
      subst h
      exact hs.trans ((fatal_sameFor _).trans (goto_sameFor _))
  | enableReading c =>
    simp only [hc, Option.some.injEq] at h
    subst h
    exact changeEvents_sameFor c _
  | updateRest c | removeRest c =>
    simp only [hc, Option.map_eq_some_iff] at h
    obtain ⟨l, -, rfl⟩ := h
    exact fun _ hu => ⟨update_of_ne hu .., rfl⟩

/-- A step moves no other thread. -/
theorem step_sameFor (h : s.step logLevel threadId fd a = some s') : SameFor (a.thread threadId) s s' := by
  cases a with
  | call t op =>
    simp only [step, Option.ite_none_right_eq_some] at h
    exact enter_sameFor h.2
  | next t fault =>
    simp only [step, Option.ite_none_right_eq_some] at h
    exact next_sameFor h.2
  | abort t =>
    simp only [step, LoggerState.step, Option.map_eq_some_iff, Option.ite_none_right_eq_some, Option.some.injEq] at h
    obtain ⟨l, ⟨-, rfl⟩, rfl⟩ := h
    exact fun _ _ => ⟨rfl, rfl⟩
  | poll result =>
    simp only [step, Option.ite_none_right_eq_some, Option.map_eq_some_iff] at h
    obtain ⟨-, l, -, rfl⟩ := h
    exact fun _ _ => ⟨rfl, rfl⟩

omit [DecidableEq τ] in
theorem SamePoller.setChannel {c : κ} {ch : Channel} (h : s'.toLoopState = s.setChannel c ch)
    (hf : ch.flag = (s.channel c).flag) : SamePoller s s' := by
  refine ⟨by rw [h]; rfl, fun d => ?_, by rw [h]; rfl⟩
  by_cases hd : d = c
  · subst hd
    simp [h, LoopState.setChannel, hf]
  · simp [h, LoopState.setChannel, hd]

/-- A call is before its first check when it is entered, and has changed nothing of the poller's. -/
theorem enter_entry {op : ThreadOp κ} (h : s.enter t op = some s') : SamePoller s s' ∧ (s'.call t).AtEntry := by
  have hchange : ∀ c f, SamePoller s (s.changeEvents t c f) ∧ ((s.changeEvents t c f).call t).AtEntry := fun c f => by
    have h : (s.changeEvents t c f).toLoopState =
        s.setChannel c { s.channel c with events := f (s.channel c).events, addedToLoop := true } := by
      simp [changeEvents, LoopState.setChannel]
    exact ⟨.setChannel h rfl, by simp [changeEvents, CallPc.AtEntry]⟩
  cases op with
  | enableReading c | enableWriting c | disableReading c | disableWriting c | disableAll c =>
    obtain rfl := Option.some.inj h
    exact hchange c _
  | remove c =>
    simp only [enter, Option.ite_none_right_eq_some, Option.some.injEq] at h
    obtain ⟨-, rfl⟩ := h
    exact ⟨.setChannel rfl rfl, by simp [CallPc.AtEntry]⟩
  | listen c =>
    obtain rfl := Option.some.inj h
    exact ⟨.of_eq rfl, by simp [CallPc.AtEntry]⟩

/-- A first check of a wrong thread: only the logger can stop it. -/
theorem next_entry {fault : Option Errno} (ht : t ≠ threadId) (he : (s.call t).AtEntry)
    (hr : s.logger.thread t = .running) (h : s.next logLevel threadId fd t fault = some s') :
    (s.call t).AtCheck ∧ SamePoller s s' ∧ (s'.logger.thread t = .stopping ↔ logLevel = .FATAL) := by
  have hstop : ∀ pc, ((s.assertInLoopThread logLevel threadId t).goto t pc).logger.thread t = .stopping ↔
      logLevel = .FATAL := fun pc => by
    rw [assertInLoopThread, if_pos ht]
    by_cases hl : logLevel = .FATAL <;> simp [goto, hl, hr]
  have hsame : ∀ pc, SamePoller s ((s.assertInLoopThread logLevel threadId t).goto t pc) := fun pc => by
    rw [assertInLoopThread, if_pos ht]
    exact .of_eq rfl
  unfold next at h
  cases hc : s.call t with
  | listen c | updateChannel c =>
    simp only [hc, Option.some.injEq] at h
    subst h
    exact ⟨trivial, hsame _, hstop _⟩
  | removeChannel c =>
    simp only [hc, Option.ite_none_left_eq_some, Option.some.injEq] at h
    obtain ⟨-, rfl⟩ := h
    exact ⟨trivial, hsame _, hstop _⟩
  | idle => simp [hc] at h
  | _ => simp [hc, CallPc.AtEntry] at he

/-- Before its first check a thread other than the loop's is confined exactly when
that check is not made, or made at the level FATAL. -/
theorem confined_step_iff (hj : NonePast threadId s) (h : s.step logLevel threadId fd a = some s') :
    Confined threadId s a s' ↔ (WrongCheck threadId s a → logLevel = .FATAL) := by
  cases a with
  | call t op =>
    simp only [step, Option.ite_none_right_eq_some] at h
    exact iff_of_true (fun _ => ⟨(enter_entry h.2).1, nofun⟩) (fun ⟨_, _, h', _⟩ => nomatch h')
  | next t fault =>
    simp only [step, Option.ite_none_right_eq_some] at h
    obtain ⟨hr, h⟩ := h
    by_cases ht : t = threadId
    · refine iff_of_true (fun hne => absurd ht hne) ?_
      rintro ⟨u, _, heq, hu, -⟩
      obtain ⟨rfl, -⟩ := ThreadLabel.next.inj heq
      exact absurd ht hu
    · obtain ⟨hcheck, hsame, hstop⟩ := next_entry ht (hj t ht hr.2) hr.2 h
      constructor
      · exact fun hconf _ => hstop.1 ((hconf ht).2 t fault rfl hcheck)
      · refine fun hl _ => ⟨hsame, fun u fault' heq _ => ?_⟩
        obtain ⟨rfl, -⟩ := ThreadLabel.next.inj heq
        exact hstop.2 (hl ⟨t, fault, rfl, ht, hcheck⟩)
  | abort t =>
    simp only [step, Option.map_eq_some_iff] at h
    obtain ⟨l, -, rfl⟩ := h
    exact iff_of_true (fun _ => ⟨.of_eq rfl, nofun⟩) (fun ⟨_, _, h', _⟩ => nomatch h')
  | poll result => exact iff_of_true (fun hne => absurd rfl hne) (fun ⟨_, _, h', _⟩ => nomatch h')

/-- As long as every step has been confined, no thread other than the loop's is past a check. -/
theorem nonePast_step (hj : NonePast threadId s) (h : s.step logLevel threadId fd a = some s')
    (hc : Confined threadId s a s') : NonePast threadId s' := by
  intro u hu hr
  by_cases hua : u = a.thread threadId
  · cases a with
    | call t op =>
      obtain rfl : u = t := hua
      simp only [step, Option.ite_none_right_eq_some] at h
      exact (enter_entry h.2).2
    | next t fault =>
      obtain rfl : u = t := hua
      simp only [step, Option.ite_none_right_eq_some] at h
      obtain ⟨hr', h⟩ := h
      have hcheck := (next_entry hu (hj u hu hr'.2) hr'.2 h).1
      rw [(hc hu).2 u fault rfl hcheck] at hr
      cases hr
    | abort t =>
      obtain rfl : u = t := hua
      simp only [step, LoggerState.step, Option.map_eq_some_iff, Option.ite_none_right_eq_some, Option.some.injEq] at h
      obtain ⟨l, ⟨hs, rfl⟩, rfl⟩ := h
      rw [hs.2] at hr
      cases hr
    | poll result => exact absurd hua hu
  · obtain ⟨hcall, hthread⟩ := step_sameFor h u hua
    rw [hcall]
    exact hj u hu (hthread ▸ hr)

end LoopThreads

/-- Every step of a run is confined to the loop's thread exactly when the
configured level is FATAL at each check that another thread makes:
`assertInLoopThread` is a FATAL statement, which `~Logger` drops at any other level. -/
theorem Threads.confined_iff {s s' : LoopThreads τ κ} {as : List (ThreadLabel τ κ)}
    (h0 : (∀ t, s.call t = .idle) ∧ s.logger.Fresh)
    (hr : (Threads τ κ logLevel threadId fd).run s as = some s') :
    (Threads τ κ logLevel threadId fd).Steps (LoopThreads.Confined threadId) s as ↔
      (Threads τ κ logLevel threadId fd).Guarded
        (fun s a => LoopThreads.WrongCheck threadId s a → logLevel = .FATAL) s as := by
  refine Lts.System.steps_iff_guarded (J := LoopThreads.NonePast threadId)
    (fun s a s' hj h hc => LoopThreads.nonePast_step hj h hc) (fun s a s' hj h => ?_) hr ?_
  · exact LoopThreads.confined_step_iff hj h
  · intro t _ _
    rw [h0.1 t]
    trivial

/-- At the level FATAL the first check of thread 1 stops it. -/
theorem Threads.confined_fatal : (Threads Nat Nat .FATAL 0 fun c => c).Steps (LoopThreads.Confined 0) .init
    [.call 1 (.enableReading 7), .next 1 none, .call 0 (.enableReading 8), .abort 1] := by
  refine (Threads.confined_iff ⟨fun _ => rfl, empty_fresh⟩ rfl).2 ?_
  exact ⟨fun _ => rfl, fun _ _ => ⟨fun _ => rfl, fun _ _ => ⟨fun _ => rfl, fun _ _ => ⟨fun _ => rfl, fun _ _ => trivial⟩⟩⟩⟩

/-- At the level INFO thread 1 registers channel 7 with the loop of thread 0. -/
theorem Threads.wrong_thread_registers :
    (∃ s, (Threads Nat Nat .INFO 0 fun c => c).run .init
        [.call 1 (.enableReading 7), .next 1 none, .next 1 none, .next 1 none] = some s ∧
      s.channels 7 = some 7 ∧ (s.channel 7).flag = .kAdded ∧ s.kernel 7 = some ⟨kReadEvent, 7⟩ ∧
      s.logger.thread 1 = .running ∧ s.logger.aborted = false) ∧
    ¬ (Threads Nat Nat .INFO 0 fun c => c).Steps (LoopThreads.Confined 0) .init
      [.call 1 (.enableReading 7), .next 1 none, .next 1 none, .next 1 none] := by
  refine ⟨⟨_, rfl, rfl, rfl, rfl, rfl, rfl⟩, fun h => ?_⟩
  obtain ⟨hc, -⟩ := (h _ rfl).2 _ rfl
  exact nomatch (hc (by decide)).2 1 none rfl trivial

end Ycnt.Net

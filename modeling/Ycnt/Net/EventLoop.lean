import Ycnt.Net.EpollPoller
/-!
# The event loop and the threads that talk to it

`EventLoop.cpp`: `loop`, `quit`, `queueInLoop` and `wakeup`, the eventfd between
them, and the read callback of the wakeup channel. `τ` stands for the threads,
`threadId` is the one the loop was created in, `φ` for the functors.

A step is what one thread does to the shared state at a time: the locked section
of `queueInLoop`, the thread test and the `write` after it, `quit`, and on the
loop's thread the test of the `while` and one poll. The read callback may run
between any two of them.
-/

namespace Ycnt.Net

open Function Linux

/-- Where the loop's thread stands in `loop`. -/
inductive LoopPc where
  | out
  /-- Before the test of the `while`. -/
  | test
  | polling
  deriving DecidableEq, Repr

/-- Where a thread stands in `queueInLoop`. -/
inductive RequestPc where
  | idle
  /-- Past the locked section: `functors_` holds the functor. -/
  | queued
  deriving DecidableEq, Repr

inductive LoopLabel (τ φ : Type*) where
  /-- The loop's thread calls `loop`. -/
  | loop
  | test
  | poll (result : Option (List (Int × BitVec 32)))
  /-- The read callback of the wakeup channel. -/
  | readCallback
  | queueInLoop (t : τ) (cb : φ)
  /-- The rest of `queueInLoop`. -/
  | wakeup (t : τ)
  | quit (t : τ)

/-- An `EventLoop`, the counter of `wakeupFd_`, and the calls under way. -/
structure EventLoop (τ φ κ : Type*) extends LoopState κ where
  pc : LoopPc
  looping : Bool
  quit : Bool
  functorHandling : Bool
  iteration : Nat
  functors : List φ
  wakeupFd : Nat
  request : τ → RequestPc
  /-- Some other thread has completed a `queueInLoop` or a `quit` since `wakeupFd_` was last read. -/
  requested : Bool

namespace EventLoop

variable {τ φ κ : Type*} [DecidableEq τ] [DecidableEq κ]
variable (threadId : τ) (fd : κ → Int) (wakeupChannel : κ)

omit [DecidableEq τ] in
/-- The constructor registers the wakeup channel. -/
def create : Option (EventLoop τ φ κ) :=
  (Channel.enableReading fd none .init wakeupChannel).map fun l =>
    { l with
      pc := .out
      looping := false
      quit := false
      functorHandling := false
      iteration := 0
      functors := []
      wakeupFd := 0
      request := fun _ => .idle
      requested := false }

variable (s : EventLoop τ φ κ)

/-- A call of thread `t` returns. -/
def completed (t : τ) : EventLoop τ φ κ :=
  { s with request := update s.request t .idle, requested := s.requested || decide (t ≠ threadId) }

omit [DecidableEq τ] [DecidableEq κ] in
/-- `wakeup` writes the value 0; a failed `write` is logged. -/
def wakeup : EventLoop τ φ κ :=
  match eventfdWrite s.wakeupFd 0 with
  | .ok n => { s with wakeupFd := n }
  | .error _ => s

omit [DecidableEq τ] [DecidableEq κ] in
/-- The read callback; a failed `read` is logged. -/
def readCallback : EventLoop τ φ κ :=
  match eventfdRead s.wakeupFd with
  | .ok (_, n) => { s with wakeupFd := n, requested := false }
  | .error _ => s

/-- One iteration of `loop`: `epoll_wait` may report registered channels, the
wakeup channel only when its eventfd is readable. -/
def poll (result : Option (List (Int × BitVec 32))) : Option (EventLoop τ φ κ) :=
  if ∀ evs ∈ result, s.Reports evs ∧ (fd wakeupChannel ∈ evs.map (·.1) → 0 < s.wakeupFd) then
    (EpollPoller.poll fd s.toLoopState result).map fun l =>
      { s with toLoopState := l, pc := .test, iteration := s.iteration + 1 }
  else none

def step : LoopLabel τ φ → Option (EventLoop τ φ κ)
  | .loop =>
    if s.pc = .out ∧ s.looping = false then some { s with pc := .test, looping := true, quit := false } else none
  | .test =>
    if s.pc = .test then
      if s.quit then some { s with pc := .polling } else some { s with pc := .out, looping := false }
    else none
  | .poll result => if s.pc = .polling then poll fd wakeupChannel s result else none
  | .readCallback => some s.readCallback
  | .queueInLoop t cb =>
    if s.request t = .idle then
      some { s with functors := s.functors ++ [cb], request := update s.request t .queued }
    else none
  | .wakeup t =>
    if s.request t = .queued then
      some ((if t ≠ threadId ∨ s.functorHandling = true then s.wakeup else s).completed threadId t)
    else none
  -- For another thread `quit` ends in an empty branch.
  | .quit t => if s.request t = .idle then some ({ s with quit := true }.completed threadId t) else none

/-- The loop's thread and any threads that call `queueInLoop` and `quit`. -/
def Requests (τ φ : Type*) {κ : Type*} [DecidableEq τ] [DecidableEq κ] (threadId : τ) (fd : κ → Int)
    (wakeupChannel : κ) : Lts.System (EventLoop τ φ κ) (LoopLabel τ φ) where
  init s := create fd wakeupChannel = some s
  step s a := s.step threadId fd wakeupChannel a

/-! ## Wakeups -/

/-- The step completes a call that another thread made. -/
def Completes : LoopLabel τ φ → Prop
  | .wakeup t => t ≠ threadId
  | .quit t => t ≠ threadId
  | _ => False

omit [DecidableEq τ] [DecidableEq κ] in
/-- Requests of other threads show: if one is completed and `wakeupFd_` not read
since, the next `epoll_wait` reports the wakeup channel. -/
def Heard (s : EventLoop τ φ κ) : Prop := s.requested = true → eventfdReadable s.wakeupFd

variable {threadId fd wakeupChannel}

omit [DecidableEq τ] in
theorem create_zero {s : EventLoop τ φ κ} (h : create fd wakeupChannel = some s) :
    s.wakeupFd = 0 ∧ s.requested = false := by
  obtain ⟨l, -, rfl⟩ := Option.map_eq_some_iff.1 h
  exact ⟨rfl, rfl⟩

omit [DecidableEq τ] [DecidableEq κ] in
theorem wakeup_zero {s : EventLoop τ φ κ} (h0 : s.wakeupFd = 0) : s.wakeup = s := by
  cases s
  subst h0
  rfl

omit [DecidableEq τ] [DecidableEq κ] in
theorem readCallback_zero {s : EventLoop τ φ κ} (h0 : s.wakeupFd = 0) : s.readCallback = s := by
  simp [readCallback, eventfdRead, h0]

/-- From a counter of 0, which nothing raises, a step asks for a wakeup exactly
when it completes a call of another thread. -/
theorem step_zero {s s' : EventLoop τ φ κ} {a : LoopLabel τ φ} (h0 : s.wakeupFd = 0)
    (h : s.step threadId fd wakeupChannel a = some s') :
    s'.wakeupFd = 0 ∧ (s'.requested = true ↔ s.requested = true ∨ Completes threadId a) := by
  cases a with
  | loop =>
    simp only [step, Option.ite_none_right_eq_some, Option.some.injEq] at h
    obtain ⟨-, rfl⟩ := h
    exact ⟨h0, by simp [Completes]⟩
  | test =>
    simp only [step] at h
    split at h
    · split at h <;> cases h <;> exact ⟨h0, by simp [Completes]⟩
    · cases h
  | poll result =>
    simp only [step, poll] at h
    split at h
    · split at h
      · obtain ⟨l, -, rfl⟩ := Option.map_eq_some_iff.1 h
        exact ⟨h0, by simp [Completes]⟩
      · cases h
    · cases h
  | readCallback =>
    simp only [step, readCallback_zero h0, Option.some.injEq] at h
    subst h
    exact ⟨h0, by simp [Completes]⟩
  | queueInLoop t cb =>
    simp only [step, Option.ite_none_right_eq_some, Option.some.injEq] at h
    obtain ⟨-, rfl⟩ := h
    exact ⟨h0, by simp [Completes]⟩
  | wakeup t =>
    simp only [step, wakeup_zero h0, ite_self, Option.ite_none_right_eq_some, Option.some.injEq] at h
    obtain ⟨-, rfl⟩ := h
    exact ⟨h0, by simp [completed, Completes]⟩
  | quit t =>
    simp only [step, Option.ite_none_right_eq_some, Option.some.injEq] at h
    obtain ⟨-, rfl⟩ := h
    exact ⟨h0, by simp [completed, Completes]⟩

/-- A run hears its requests throughout exactly when no other thread completes
one: `wakeup` writes 0 to the eventfd, and `quit` does not even call it. -/
theorem heard_iff_none_completed {s t : EventLoop τ φ κ} {as : List (LoopLabel τ φ)}
    (h0 : create fd wakeupChannel = some s) (hr : (Requests τ φ threadId fd wakeupChannel).run s as = some t) :
    (Requests τ φ threadId fd wakeupChannel).Always Heard s as ↔
      (Requests τ φ threadId fd wakeupChannel).Guarded (fun _ a => ¬ Completes threadId a) s as := by
  obtain ⟨hz, hn⟩ := create_zero h0
  refine Lts.System.always_iff_guarded (J := fun s => s.wakeupFd = 0) (fun s a s' hj h => (step_zero hj h).1)
    (fun s a s' hj hp h => ?_) hr hz fun h => by simp [hn] at h
  obtain ⟨hz', hreq⟩ := step_zero hj h
  have hs : s.requested = false := by
    cases hs : s.requested with
    | false => rfl
    | true => exact absurd (hp hs) (by simp [eventfdReadable, hj])
  simp [Heard, hreq, hs, hz', eventfdReadable]

/-- The loop's own functor is no request of another thread. -/
theorem heard_own_functor : ∃ s, create (fun _ : Unit => 7) () = some s ∧
    (Requests Nat Nat 0 (fun _ : Unit => 7) ()).Always Heard s [.loop, .queueInLoop 0 9, .wakeup 0, .test] := by
  refine ⟨_, rfl, (heard_iff_none_completed rfl rfl).2 ?_⟩
  refine ⟨id, fun s h => ⟨id, fun s h => ⟨fun h => h rfl, fun s h => ⟨id, fun _ _ => trivial⟩⟩⟩⟩

/-- Thread 1 queues a functor for the loop of thread 0, and another one calls
`quit`: the eventfd is not readable after either. -/
theorem functor_and_quit_unheard : ∃ s, create (fun _ : Unit => 7) () = some s ∧
    (∃ s', (Requests Nat Nat 0 (fun _ : Unit => 7) ()).run s [.loop, .queueInLoop 1 9, .wakeup 1] = some s' ∧
      s'.functors = [9] ∧ ¬ Heard s') ∧
    ∃ s', (Requests Nat Nat 0 (fun _ : Unit => 7) ()).run s [.loop, .quit 2] = some s' ∧
      s'.quit = true ∧ ¬ Heard s' :=
  ⟨_, rfl, ⟨_, rfl, rfl, fun h => absurd (h rfl) (Nat.lt_irrefl 0)⟩, _, rfl, rfl, fun h => absurd (h rfl) (Nat.lt_irrefl 0)⟩

/-! ## Quitting -/

/-- An event loop, and whether `quit` has been called since `loop` reset `quit_`. -/
structure Quitting (τ φ κ : Type*) where
  loop : EventLoop τ φ κ
  asked : Bool

/-- What a step does to `asked`. -/
def asks (asked : Bool) : LoopLabel τ φ → Bool
  | .loop => false
  | .quit _ => true
  | _ => asked

/-- `Requests`, with a look at the calls of `quit`. -/
def Quits (τ φ : Type*) {κ : Type*} [DecidableEq τ] [DecidableEq κ] (threadId : τ) (fd : κ → Int)
    (wakeupChannel : κ) : Lts.System (Quitting τ φ κ) (LoopLabel τ φ) where
  init s := create fd wakeupChannel = some s.loop ∧ s.asked = false
  step s a := (s.loop.step threadId fd wakeupChannel a).map fun l => ⟨l, asks s.asked a⟩

/-- `loop` returns only after a `quit`, and starts no poll after one. -/
def ObeysQuit (s : Quitting τ φ κ) (_ : LoopLabel τ φ) (s' : Quitting τ φ κ) : Prop :=
  (s.loop.pc ≠ .out → s'.loop.pc = .out → s.asked = true) ∧
    (s.loop.pc ≠ .polling → s'.loop.pc = .polling → s.asked = false)

omit [DecidableEq τ] in
theorem create_quit {s : EventLoop τ φ κ} (h : create fd wakeupChannel = some s) : s.quit = false := by
  obtain ⟨l, -, rfl⟩ := Option.map_eq_some_iff.1 h
  rfl

/-- The steps as `quit_` and the place in `loop` see them. -/
theorem step_quit {s s' : EventLoop τ φ κ} {a : LoopLabel τ φ} (h : s.step threadId fd wakeupChannel a = some s') :
    s'.quit = asks s.quit a ∧
      ((a = .loop ∧ s.pc = .out ∧ s'.pc = .test) ∨
        (a = .test ∧ s.pc = .test ∧ s'.pc = if s.quit then .polling else .out) ∨
        ((∃ result, a = .poll result) ∧ s.pc = .polling ∧ s'.pc = .test) ∨
        a ≠ .test ∧ s'.pc = s.pc) := by
  cases a with
  | loop =>
    simp only [step, Option.ite_none_right_eq_some, Option.some.injEq] at h
    obtain ⟨hpc, rfl⟩ := h
    exact ⟨rfl, .inl ⟨rfl, hpc.1, rfl⟩⟩
  | test =>
    simp only [step] at h
    split at h
    · rename_i hpc
      refine ⟨?_, .inr (.inl ⟨rfl, hpc, ?_⟩)⟩
      · split at h <;> cases h <;> rfl
      · split at h <;> cases h <;> simp [*]
    · cases h
  | poll result =>
    simp only [step, poll] at h
    split at h
    · rename_i hpc
      split at h
      · obtain ⟨l, -, rfl⟩ := Option.map_eq_some_iff.1 h
        exact ⟨rfl, .inr (.inr (.inl ⟨⟨result, rfl⟩, hpc, rfl⟩))⟩
      · cases h
    · cases h
  | readCallback =>
    simp only [step, Option.some.injEq] at h
    subst h
    unfold readCallback
    split <;> exact ⟨rfl, .inr (.inr (.inr ⟨nofun, rfl⟩))⟩
  | queueInLoop t cb | quit t =>
    simp only [step, Option.ite_none_right_eq_some, Option.some.injEq] at h
    obtain ⟨-, rfl⟩ := h
    exact ⟨rfl, .inr (.inr (.inr ⟨nofun, rfl⟩))⟩
  | wakeup t =>
    simp only [step, Option.ite_none_right_eq_some, Option.some.injEq] at h
    obtain ⟨-, rfl⟩ := h
    refine ⟨?_, .inr (.inr (.inr ⟨nofun, ?_⟩))⟩
    all_goals
      unfold completed wakeup
      split
      · split <;> rfl
      · rfl

/-- The test of `while (quit_)` goes wrong either way, and nothing else does. -/
theorem obeysQuit_iff {s s' : Quitting τ φ κ} {a : LoopLabel τ φ} (hj : s.loop.quit = s.asked)
    (h : (Quits τ φ threadId fd wakeupChannel).step s a = some s') :
    s'.loop.quit = s'.asked ∧ (ObeysQuit s a s' ↔ a ≠ .test) := by
  obtain ⟨l, hl, rfl⟩ := Option.map_eq_some_iff.1 h
  obtain ⟨hquit, hpc⟩ := step_quit hl
  refine ⟨by rw [hquit, hj], ?_⟩
  rcases hpc with ⟨rfl, hpc, hpc'⟩ | ⟨rfl, hpc, hpc'⟩ | ⟨⟨result, rfl⟩, hpc, hpc'⟩ | ⟨ha, hpc'⟩
  · simp [ObeysQuit, hpc, hpc']
  · cases hq : s.asked with
    | true => simp [ObeysQuit, hpc, hpc', hj, hq]
    | false => simp [ObeysQuit, hpc, hpc', hj, hq]
  · simp [ObeysQuit, hpc, hpc']
  · refine iff_of_true ⟨fun hne heq => ?_, fun hne heq => ?_⟩ ha
    · exact absurd (hpc'.symm.trans heq) hne
    · exact absurd (hpc'.symm.trans heq) hne

/-- A run obeys its quits exactly when `loop` never gets to the test of its
`while`, which is the wrong way round. -/
theorem obeys_quit_iff {s t : Quitting τ φ κ} {as : List (LoopLabel τ φ)}
    (h0 : create fd wakeupChannel = some s.loop ∧ s.asked = false)
    (hr : (Quits τ φ threadId fd wakeupChannel).run s as = some t) :
    (Quits τ φ threadId fd wakeupChannel).Steps ObeysQuit s as ↔ ∀ a ∈ as, a ≠ .test := by
  rw [← Lts.System.guarded_labels hr]
  refine Lts.System.steps_iff_guarded (J := fun s => s.loop.quit = s.asked)
    (fun _ _ _ hj h _ => (obeysQuit_iff hj h).1) (fun _ _ _ hj h => (obeysQuit_iff hj h).2) hr ?_
  rw [create_quit h0.1, h0.2]

/-- `loop` is called and `quit`, and the test is still to come. -/
theorem obeys_quit_untested : ∃ s : Quitting Nat Nat Unit, create (fun _ => 7) () = some s.loop ∧ s.asked = false ∧
    (Quits Nat Nat 0 (fun _ : Unit => 7) ()).Steps ObeysQuit s [.loop, .queueInLoop 1 9, .quit 2] := by
  refine ⟨⟨_, false⟩, rfl, rfl, (obeys_quit_iff ⟨rfl, rfl⟩ rfl).2 ?_⟩
  simp

/-- `loop` returns at once, and polls if it has been asked to quit. -/
theorem loop_returns_and_polls : ∃ s : Quitting Nat Nat Unit, create (fun _ => 7) () = some s.loop ∧ s.asked = false ∧
    (∃ s₁ s₂, (Quits Nat Nat 0 (fun _ : Unit => 7) ()).run s [.loop] = some s₁ ∧
      (Quits Nat Nat 0 (fun _ : Unit => 7) ()).step s₁ .test = some s₂ ∧
      s₁.asked = false ∧ s₂.loop.pc = .out ∧ ¬ ObeysQuit s₁ .test s₂) ∧
    ∃ s₁ s₂, (Quits Nat Nat 0 (fun _ : Unit => 7) ()).run s [.loop, .quit 1] = some s₁ ∧
      (Quits Nat Nat 0 (fun _ : Unit => 7) ()).step s₁ .test = some s₂ ∧
      s₁.asked = true ∧ s₂.loop.pc = .polling ∧ ¬ ObeysQuit s₁ .test s₂ := by
  refine ⟨⟨_, false⟩, rfl, rfl, ⟨_, _, rfl, rfl, rfl, rfl, fun h => ?_⟩, _, _, rfl, rfl, rfl, rfl, fun h => ?_⟩
  · exact absurd (h.1 nofun rfl) (by decide)
  · exact absurd (h.2 nofun rfl) (by decide)

end EventLoop

end Ycnt.Net

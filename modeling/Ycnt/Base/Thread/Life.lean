import Ycnt.Base.Thread
/-!
# The life of a thread

A `Thread` from its constructor to its destructor, with the `ThreadData` and the new
thread that `start` makes (`Thread.cpp`). The new thread writes to the `Thread` until it
has counted down, and may outlive it after that.
-/

namespace Ycnt

/-- What `t_threadName` points to. -/
inductive ThreadName where
  | unknown
  /-- `name_` of the `ThreadData`. -/
  | own
  | finished
  | crashed
  deriving DecidableEq, Repr

/-- Where the new thread stands in `startThreadFunc`. -/
inductive LifePc where
  /-- Up to its `countDown`. -/
  | starting
  /-- At the call of `func_`. -/
  | named
  | returned
  /-- The `ThreadData` is deleted. -/
  | exited
  deriving DecidableEq, Repr

/-- What `pthread_create` made. -/
inductive Pthread where
  | none
  | joinable
  | joined
  | detached
  deriving DecidableEq, Repr

inductive LifeLabel where
  /-- A step of `Thread::start`, or of the new thread up to its `countDown`. -/
  | start (a : StartLabel)
  | setName
  /-- The new thread calls `func_`, which returns or throws. -/
  | call (throws : Bool)
  | deleteData
  | join
  /-- `pthread_join` returns. -/
  | joinReturn
  /-- `~Thread` -/
  | destroy

/-- A `Thread` made for a function `φ`, the new thread, and the functions it has called. -/
structure ThreadLife (φ : Type*) where
  thread : Thread
  alive : Bool
  joined : Bool
  /-- The owner is in `pthread_join`. -/
  joining : Bool
  /-- `func_`. What is moved from is empty: so libstdc++ has it, where the standard
  leaves a moved-from `std::function` unspecified. -/
  func : Option φ
  /-- The `ThreadData`, by its `func_`. -/
  data : Option (Option φ)
  pc : LifePc
  name : ThreadName
  pthread : Pthread
  called : List φ
  aborted : Bool

namespace ThreadLife

variable {φ : Type*}

/-- A `Thread` whose constructor has returned. -/
def create (func : Option φ) : ThreadLife φ where
  thread := .create
  alive := true
  joined := false
  joining := false
  func := func
  data := none
  pc := .starting
  name := .unknown
  pthread := .none
  called := []
  aborted := false

variable (s : ThreadLife φ)

/-- `func_` moves into the new `ThreadData`, which is deleted again if there is no thread. -/
def start : StartLabel → Thread → ThreadLife φ
  | .start true, thread => { s with thread := thread, func := none, data := some s.func, pthread := .joinable }
  | .start false, thread => { s with thread := thread, func := none }
  | _, thread => { s with thread := thread }

/-- The `try` of `ThreadData::run`: an exception ends the process, and so does the call
of an empty function. -/
def call (throws : Bool) (func : Option φ) : ThreadLife φ :=
  let s := { s with called := s.called ++ func.toList }
  if throws = true ∨ func = none then { s with name := .crashed, aborted := true }
  else { s with name := .finished, pc := .returned }

/-- The owner is neither in `start` nor in `join`. -/
def OwnerIdle : Prop := (s.thread.startPc = .idle ∨ s.thread.startPc = .returned) ∧ s.joining = false

instance : Decidable s.OwnerIdle := inferInstanceAs (Decidable (_ ∧ _))

def stepAlive : LifeLabel → Option (ThreadLife φ)
  | .start a =>
    match a with
    | .start _ => if s.alive ∧ s.OwnerIdle then (s.thread.step a).map (s.start a) else none
    | _ => (s.thread.step a).map (s.start a)
  | .setName =>
    if s.thread.runPc = .countedDown ∧ s.pc = .starting then some { s with pc := .named, name := .own } else none
  | .call throws => if s.pc = .named then s.data.map (s.call throws) else none
  | .deleteData => if s.pc = .returned then some { s with data := none, pc := .exited } else none
  | .join =>
    if s.alive ∧ s.OwnerIdle ∧ s.thread.started ∧ s.joined = false then some { s with joined := true, joining := true }
    else none
  | .joinReturn =>
    if s.joining = true ∧ s.pc = .exited then some { s with joining := false, pthread := .joined } else none
  | .destroy =>
    if s.alive ∧ s.OwnerIdle then
      some { s with
        alive := false
        pthread := if s.thread.started = true ∧ s.joined = false then .detached else s.pthread }
    else none

/-- Nothing follows an `abort`. -/
def step (a : LifeLabel) : Option (ThreadLife φ) := if s.aborted then none else s.stepAlive a

end ThreadLife

/-- The owner of a `Thread` made for `func`, and the thread it creates. -/
def ThreadLives {φ : Type*} (func : Option φ) : Lts.System (ThreadLife φ) LifeLabel where
  init s := s = .create func
  step s a := s.step a

namespace Thread

variable {s s' : Thread}

/-- A step is `pthread_create`, one of the owner within `start`, or one of the new thread. -/
theorem step_pcs {a : StartLabel} (h : s.step a = some s') :
    (∃ created, a = .start created ∧ s.startPc = .idle ∧ s.started = false ∧
      s' = if created then { s with started := true, startPc := .created, runPc := .entry } else s) ∨
    ((∀ created, a ≠ .start created) ∧ (s.startPc ≠ .idle ∧ s.startPc ≠ .returned) ∧ s'.startPc ≠ .idle ∧
      s'.started = s.started ∧ s'.runPc = s.runPc) ∨
    ((∀ created, a ≠ .start created) ∧ s'.startPc = s.startPc ∧ s'.started = s.started ∧
      (s.runPc = .entry ∧ s'.runPc = .tidStored ∨ s.runPc = .tidStored ∧ s'.runPc = .countedDown)) := by
  have hwaited : ∀ latch : Latch Party, (s.waitedOn latch).startPc ≠ .idle := by
    intro latch
    unfold waitedOn
    split <;> simp
  cases a with
  | start created =>
    simp only [step, Option.ite_none_right_eq_some, Option.some.injEq] at h
    obtain ⟨⟨hidle, hstarted⟩, rfl⟩ := h
    refine .inl ⟨created, rfl, hidle, hstarted, ?_⟩
    cases created with
    | true => rfl
    | false =>
      cases s
      cases hstarted
      rfl
  | wait =>
    simp only [step, Option.ite_none_right_eq_some, Option.map_eq_some_iff] at h
    obtain ⟨hpc, latch, -, rfl⟩ := h
    exact .inr (.inl ⟨by simp, by simp [hpc], hwaited latch, rfl, rfl⟩)
  | resume =>
    simp only [step, Option.ite_none_right_eq_some, Option.map_eq_some_iff] at h
    obtain ⟨hpc, latch, -, rfl⟩ := h
    exact .inr (.inl ⟨by simp, by simp [hpc], hwaited latch, rfl, rfl⟩)
  | spurious =>
    simp only [step, Option.ite_none_right_eq_some, Option.map_eq_some_iff] at h
    obtain ⟨hpc, latch, -, rfl⟩ := h
    exact .inr (.inl ⟨by simp, by simp [hpc], by simp [hpc], rfl, rfl⟩)
  | assertTid =>
    simp only [step, Option.ite_none_right_eq_some, Option.some.injEq] at h
    obtain ⟨hpc, rfl⟩ := h
    refine .inr (.inl ⟨by simp, by simp [hpc], ?_, rfl, rfl⟩)
    dsimp only
    split <;> simp
  | storeTid tid =>
    simp only [step, Option.ite_none_right_eq_some, Option.some.injEq] at h
    obtain ⟨⟨hpc, -⟩, rfl⟩ := h
    exact .inr (.inr ⟨by simp, rfl, rfl, .inl ⟨hpc, rfl⟩⟩)
  | countDown =>
    simp only [step, Option.ite_none_right_eq_some, Option.map_eq_some_iff] at h
    obtain ⟨hpc, latch, -, rfl⟩ := h
    exact .inr (.inr ⟨by simp, rfl, rfl, .inr ⟨hpc, rfl⟩⟩)

end Thread

namespace ThreadLife

variable {φ : Type*} {func : Option φ} {s s' : ThreadLife φ}

theorem step_eq {a : LifeLabel} (h : s.step a = some s') : s.aborted = false ∧ s.stepAlive a = some s' := by
  simp only [step, Option.ite_none_left_eq_some, Bool.not_eq_true] at h
  exact h

/-- What `pthread_create` made is joined once or detached once. -/
def pthreadOf (s : ThreadLife φ) : Pthread :=
  if s.thread.runPc = .notCreated then .none
  else if s.joined = true ∧ s.joining = false then .joined
  else if s.alive then .joinable
  else .detached

/-- What the new thread has done so far. -/
def Done (func : Option φ) (s : ThreadLife φ) : Prop :=
  match s.pc with
  | .starting => s.called = [] ∧ s.name = .unknown ∧ s.aborted = false
  | .named => s.thread.runPc = .countedDown ∧
      (s.aborted = false → s.called = [] ∧ s.name = .own) ∧
      (s.aborted = true → (s.called = [] ∨ s.called = func.toList) ∧ s.name = .crashed)
  | .returned | .exited => s.thread.runPc = .countedDown ∧ s.called = func.toList ∧ func ≠ none ∧ s.name = .finished

structure Lives (func : Option φ) (s : ThreadLife φ) : Prop where
  handshake : s.thread.Handshake
  started_iff : s.thread.started = true ↔ s.thread.startPc ≠ .idle
  created_iff : s.thread.runPc = .notCreated ↔ s.thread.startPc = .idle
  dead : s.alive = false → s.OwnerIdle
  joining : s.joining = true → s.alive = true ∧ s.joined = true
  joined : s.joined = true → s.thread.startPc = .returned
  exited : s.joined = true → s.joining = false → s.pc = .exited
  pthread_eq : s.pthread = s.pthreadOf
  data_iff : s.data = none ↔ s.thread.runPc = .notCreated ∨ s.pc = .exited
  moved : ∀ g ∈ s.data, g = func ∨ g = none
  kept : s.thread.startPc = .idle → s.func = func ∨ s.func = none
  done : s.Done func

theorem create_lives (func : Option φ) : Lives func (create func) where
  handshake := Thread.create_handshake
  started_iff := by simp [create, Thread.create]
  created_iff := by simp [create, Thread.create]
  dead h := by cases h
  joining h := by cases h
  joined h := by cases h
  exited h := by cases h
  pthread_eq := rfl
  data_iff := by simp [create, Thread.create]
  moved _ h := by cases h
  kept _ := .inl rfl
  done := ⟨rfl, rfl, rfl⟩

theorem Lives.starting (h : Lives func s) (hrun : s.thread.runPc ≠ .countedDown) : s.pc = .starting := by
  have hd := h.done
  unfold Done at hd
  cases hpc : s.pc with
  | starting => rfl
  | named | returned | exited =>
    rw [hpc] at hd
    exact absurd hd.1 hrun

theorem Lives.done_starting (h : Lives func s) (hpc : s.pc = .starting) :
    s.called = [] ∧ s.name = .unknown ∧ s.aborted = false := by
  have hd := h.done
  unfold Done at hd
  rwa [hpc] at hd

theorem start_of_ne {a : StartLabel} (hne : ∀ created, a ≠ .start created) (thread : Thread) :
    s.start a thread = { s with thread := thread } := by
  cases a with
  | start created => exact absurd rfl (hne created)
  | _ => rfl

theorem start_lives (h : Lives func s) {a : StartLabel} {thread : Thread} (hstep : s.thread.step a = some thread)
    (hidle : ∀ created, a = .start created → s.alive = true ∧ s.OwnerIdle) : Lives func (s.start a thread) := by
  have hhand := Thread.step_handshake h.handshake hstep
  rcases Thread.step_pcs hstep with ⟨created, rfl, hpc, hstarted, rfl⟩ | ⟨hne, hpc, hpc', hstarted, hrun⟩ |
    ⟨hne, hpc, hstarted, hrun⟩
  · -- `pthread_create`
    obtain ⟨halive, -, hjoining⟩ := hidle created rfl
    have hrun := h.created_iff.2 hpc
    have hstarting := h.starting (by simp [hrun])
    have hjoined : s.joined = false := by
      by_contra hj
      have := h.joined (by simpa using hj)
      rw [hpc] at this
      cases this
    have hdone := h.done_starting hstarting
    cases created with
    | true =>
      exact {
        handshake := hhand
        started_iff := by simp [start]
        created_iff := by simp [start]
        dead := fun hd => by simp [start, halive] at hd
        joining := fun hj => by simp [start, hjoining] at hj
        joined := fun hj => by simp [start, hjoined] at hj
        exited := fun hj => by simp [start, hjoined] at hj
        pthread_eq := by simp [start, pthreadOf, hjoined, halive]
        data_iff := by simp [start, hstarting]
        moved := fun g hg => by
          obtain rfl := Option.some.inj hg
          exact h.kept hpc
        kept := fun hi => by simp [start] at hi
        done := by simpa [start, Done, hstarting] using hdone }
    | false =>
      exact { h with kept := fun _ => .inr rfl }
  · -- The owner, within `start`.
    have halive : s.alive = true := by
      by_contra hd
      rcases (h.dead (by simpa using hd)).1 with hi | hi
      · exact hpc.1 hi
      · exact hpc.2 hi
    have hjoined : s.joined = false := by
      by_contra hj
      exact hpc.2 (h.joined (by simpa using hj))
    have hcreated : thread.runPc ≠ .notCreated := by
      rw [hrun]
      exact fun hn => hpc.1 (h.created_iff.1 hn)
    rw [start_of_ne hne]
    exact { h with
      handshake := hhand
      started_iff := by simp [hstarted, hpc', h.started_iff, hpc.1]
      created_iff := by simp [hcreated, hpc']
      dead := fun hd => by simp [halive] at hd
      joined := fun hj => by simp [hjoined] at hj
      pthread_eq := by
        rw [h.pthread_eq]
        simp only [pthreadOf, hrun]
      data_iff := by simp only [h.data_iff, hrun]
      kept := fun hi => absurd hi hpc'
      done := by
        have hd := h.done
        simp only [Done, hrun] at hd ⊢
        exact hd }
  · -- The new thread.
    have hstarting := h.starting (by rcases hrun with hr | hr <;> simp [hr.1])
    have hcreated : s.thread.runPc ≠ .notCreated ∧ thread.runPc ≠ .notCreated := by
      rcases hrun with hr | hr <;> simp [hr.1, hr.2]
    rw [start_of_ne hne]
    exact { h with
      handshake := hhand
      started_iff := by simp only [hstarted, hpc, h.started_iff]
      created_iff := by simp only [hcreated.2, hpc, ← h.created_iff, hcreated.1]
      dead := fun hd => by
        have := h.dead hd
        unfold OwnerIdle at this ⊢
        rwa [hpc]
      joined := fun hj => hpc.trans (h.joined hj)
      pthread_eq := by
        rw [h.pthread_eq]
        simp only [pthreadOf, hcreated.1, hcreated.2]
      data_iff := by simp only [h.data_iff, hcreated.1, hcreated.2]
      kept := fun hi => h.kept (hpc ▸ hi)
      done := by simpa [Done, hstarting] using h.done_starting hstarting }

theorem setName_lives (h : Lives func s) (hrun : s.thread.runPc = .countedDown) (hpc : s.pc = .starting) :
    Lives func { s with pc := .named, name := .own } := by
  obtain ⟨hcalled, -, haborted⟩ := h.done_starting hpc
  exact { h with
    exited := fun hj hjoining => by
      have := h.exited hj hjoining
      rw [hpc] at this
      cases this
    data_iff := by simpa [hpc] using h.data_iff
    done := ⟨hrun, fun _ => ⟨hcalled, rfl⟩, fun ha => by simp [haborted] at ha⟩ }

theorem call_lives (h : Lives func s) (ha : s.aborted = false) (hpc : s.pc = .named) (throws : Bool) {g : Option φ}
    (hg : s.data = some g) : Lives func (s.call throws g) := by
  have hd := h.done
  unfold Done at hd
  rw [hpc] at hd
  obtain ⟨hrun, hnamed, -⟩ := hd
  obtain ⟨hcalled, -⟩ := hnamed ha
  have hexited : s.joined = true → s.joining ≠ false := fun hj hjoining => by
    have := h.exited hj hjoining
    rw [hpc] at this
    cases this
  have hmoved := h.moved g hg
  unfold call
  split
  · exact { h with
      done := by
        simp only [Done, hpc, hcalled, List.nil_append]
        refine ⟨hrun, fun hn => (by simp at hn), fun _ => ⟨?_, trivial⟩⟩
        rcases hmoved with rfl | rfl
        · exact .inr rfl
        · exact .inl rfl }
  · rename_i hok
    rw [not_or] at hok
    have hfunc : g = func := hmoved.resolve_right hok.2
    exact { h with
      exited := fun hj hjoining => absurd hjoining (hexited hj)
      data_iff := by simpa [hpc] using h.data_iff
      done := ⟨hrun, by simp [hcalled, hfunc], hfunc ▸ hok.2, rfl⟩ }

theorem deleteData_lives (h : Lives func s) (hpc : s.pc = .returned) :
    Lives func { s with data := none, pc := .exited } := by
  have hd := h.done
  unfold Done at hd
  rw [hpc] at hd
  exact { h with
    exited := fun _ _ => rfl
    data_iff := by simp
    moved := fun g hg => by cases hg
    done := hd }

theorem join_lives (h : Lives func s) (halive : s.alive = true) (hidle : s.OwnerIdle) (hstarted : s.thread.started = true)
    (hjoined : s.joined = false) : Lives func { s with joined := true, joining := true } :=
  { h with
    dead := fun hd => by simp [halive] at hd
    joining := fun _ => ⟨halive, rfl⟩
    joined := fun _ => hidle.1.resolve_left (h.started_iff.1 hstarted)
    exited := fun _ hj => by cases hj
    pthread_eq := by
      rw [h.pthread_eq]
      simp [pthreadOf, hjoined] }

theorem joinReturn_lives (h : Lives func s) (hjoining : s.joining = true) (hpc : s.pc = .exited) :
    Lives func { s with joining := false, pthread := .joined } := by
  obtain ⟨halive, hjoined⟩ := h.joining hjoining
  have hcreated : s.thread.runPc ≠ .notCreated := fun hn => by
    have := (h.created_iff.1 hn).symm.trans (h.joined hjoined)
    cases this
  exact { h with
    dead := fun hd => by simp [halive] at hd
    joining := fun hj => by cases hj
    exited := fun _ _ => hpc
    pthread_eq := by simp [pthreadOf, hcreated, hjoined] }

theorem destroy_lives (h : Lives func s) (hidle : s.OwnerIdle) :
    Lives func { s with
      alive := false
      pthread := if s.thread.started = true ∧ s.joined = false then .detached else s.pthread } :=
  { h with
    dead := fun _ => hidle
    joining := fun hj => by simp [hidle.2] at hj
    pthread_eq := by
      have hcreated := h.created_iff
      have hstarted := h.started_iff
      rw [h.pthread_eq]
      cases hj : s.joined with
      | true => simp [pthreadOf, hj, hidle.2]
      | false => by_cases hn : s.thread.startPc = .idle <;> simp_all [pthreadOf] }

theorem lives_step {a : LifeLabel} (h : Lives func s) (hs : s.step a = some s') : Lives func s' := by
  obtain ⟨ha, hs⟩ := step_eq hs
  cases a with
  | start a =>
    cases a with
    | start created =>
      simp only [stepAlive, Option.ite_none_right_eq_some, Option.map_eq_some_iff] at hs
      obtain ⟨hidle, thread, hthread, rfl⟩ := hs
      exact start_lives h hthread fun _ _ => hidle
    | wait | resume | spurious | assertTid | storeTid tid | countDown =>
      simp only [stepAlive, Option.map_eq_some_iff] at hs
      obtain ⟨thread, hthread, rfl⟩ := hs
      exact start_lives h hthread fun _ hne => by cases hne
  | setName =>
    simp only [stepAlive, Option.ite_none_right_eq_some, Option.some.injEq] at hs
    obtain ⟨⟨hrun, hpc⟩, rfl⟩ := hs
    exact setName_lives h hrun hpc
  | call throws =>
    simp only [stepAlive, Option.ite_none_right_eq_some, Option.map_eq_some_iff] at hs
    obtain ⟨hpc, g, hg, rfl⟩ := hs
    exact call_lives h ha hpc throws hg
  | deleteData =>
    simp only [stepAlive, Option.ite_none_right_eq_some, Option.some.injEq] at hs
    obtain ⟨hpc, rfl⟩ := hs
    exact deleteData_lives h hpc
  | join =>
    simp only [stepAlive, Option.ite_none_right_eq_some, Option.some.injEq] at hs
    obtain ⟨⟨halive, hidle, hstarted, hjoined⟩, rfl⟩ := hs
    exact join_lives h halive hidle hstarted hjoined
  | joinReturn =>
    simp only [stepAlive, Option.ite_none_right_eq_some, Option.some.injEq] at hs
    obtain ⟨⟨hjoining, hpc⟩, rfl⟩ := hs
    exact joinReturn_lives h hjoining hpc
  | destroy =>
    simp only [stepAlive, Option.ite_none_right_eq_some, Option.some.injEq] at hs
    obtain ⟨⟨-, hidle⟩, rfl⟩ := hs
    exact destroy_lives h hidle

theorem reachable_lives (h : (ThreadLives func).Reachable s) : Lives func s := by
  refine h.inv (I := Lives func) (fun t ht => ?_) fun _ _ _ hi hs => lives_step hi hs
  obtain rfl : t = create func := ht
  exact create_lives func

theorem Lives.joined_iff (h : Lives func s) : s.pthread = .joined ↔ s.joined = true ∧ s.joining = false := by
  have hcreated := h.created_iff
  rw [h.pthread_eq, pthreadOf]
  constructor
  · intro hp
    split at hp
    · cases hp
    split at hp
    · assumption
    · split at hp <;> cases hp
  · intro hj
    have hn : s.thread.runPc ≠ .notCreated := fun hn => by
      have := (hcreated.1 hn).symm.trans (h.joined hj.1)
      cases this
    rw [if_neg hn, if_pos hj]

/-- The new thread leaves a destroyed `Thread` alone, a destroyed `Thread` leaves no joinable
thread, `join` returns when the function has, and `t_threadName` is valid. -/
theorem outlives_safely (h : (ThreadLives func).Reachable s) :
    (s.thread.runPc = .entry ∨ s.thread.runPc = .tidStored → s.alive = true) ∧
      (s.alive = false → s.pthread ≠ .joinable) ∧
      (s.pthread = .joined → s.called = func.toList ∧ s.name = .finished ∧ s.data = none) ∧
      (s.called = [] ∨ s.called = func.toList) ∧ (s.name = .own → s.data ≠ none) := by
  have hi := reachable_lives h
  have hd := hi.done
  refine ⟨fun hrun => ?_, fun hdead hp => ?_, fun hp => ?_, ?_, fun hname hdata => ?_⟩
  · -- A destroyed `Thread` was never started, or `start` has waited for the `countDown`.
    by_contra hdead
    rcases (hi.dead (by simpa using hdead)).1 with hpc | hpc
    · rw [hi.created_iff.2 hpc] at hrun
      simp at hrun
    · rw [hi.handshake.counted (.inr hpc)] at hrun
      simp at hrun
  · rw [hi.pthread_eq, pthreadOf, hdead] at hp
    split at hp
    · cases hp
    split at hp <;> cases hp
  · obtain ⟨hj, hjoining⟩ := hi.joined_iff.1 hp
    have hpc := hi.exited hj hjoining
    unfold Done at hd
    rw [hpc] at hd
    exact ⟨hd.2.1, hd.2.2.2, hi.data_iff.2 (.inr hpc)⟩
  · unfold Done at hd
    cases hpc : s.pc with
    | starting => exact .inl (hi.done_starting hpc).1
    | named =>
      rw [hpc] at hd
      cases ha : s.aborted with
      | true => exact (hd.2.2 ha).1
      | false => exact .inl (hd.2.1 ha).1
    | returned | exited =>
      rw [hpc] at hd
      exact .inr hd.2.1
  · unfold Done at hd
    rcases hi.data_iff.1 hdata with hrun | hpc
    · have hstart := hi.done_starting (hi.starting (by simp [hrun]))
      rw [hstart.2.1] at hname
      cases hname
    · rw [hpc] at hd
      have := hname.symm.trans hd.2.2.2
      cases this

/-- A `Thread` is destroyed while its function is still to run. -/
theorem outlives_safely_detached : ∃ s : ThreadLife Nat, s.called = [5] ∧ s.pthread = .detached ∧
    (s.alive = false → s.pthread ≠ .joinable) := by
  have hr : (ThreadLives (some 5)).run (create (some 5)) [.start (.start true), .start .wait, .start (.storeTid 7),
      .start .countDown, .start .resume, .start .assertTid, .destroy, .setName, .call false, .deleteData] = some _ := rfl
  exact ⟨_, rfl, rfl, (outlives_safely (.run (.init rfl) hr)).2.1⟩

/-! ## After a failed `pthread_create` -/

/-- The function is lost. -/
structure Emptied (s : ThreadLife φ) : Prop where
  called : s.called = []
  pc : s.pc = .starting ∨ s.pc = .named
  func : s.thread.startPc = .idle → s.func = none
  data : ∀ g ∈ s.data, g = none

theorem emptied_step {a : LifeLabel} (h : Emptied s) (hs : s.step a = some s') : Emptied s' := by
  obtain ⟨-, hs⟩ := step_eq hs
  have hstart : ∀ a thread, s.thread.step a = some thread → Emptied (s.start a thread) := by
    intro a thread hthread
    rcases Thread.step_pcs hthread with ⟨created, rfl, hpc, -, rfl⟩ | ⟨hne, -, hpc', -⟩ | ⟨hne, hpc, -⟩
    · cases created with
      | true => exact ⟨h.called, h.pc, fun _ => rfl, fun g hg => (Option.some.inj hg).symm.trans (h.func hpc)⟩
      | false => exact ⟨h.called, h.pc, fun _ => rfl, h.data⟩
    · rw [start_of_ne hne]
      exact ⟨h.called, h.pc, fun hi => absurd hi hpc', h.data⟩
    · rw [start_of_ne hne]
      exact ⟨h.called, h.pc, fun hi => h.func (hpc ▸ hi), h.data⟩
  cases a with
  | start a =>
    cases a with
    | start created =>
      simp only [stepAlive, Option.ite_none_right_eq_some, Option.map_eq_some_iff] at hs
      obtain ⟨-, thread, hthread, rfl⟩ := hs
      exact hstart _ _ hthread
    | wait | resume | spurious | assertTid | storeTid tid | countDown =>
      simp only [stepAlive, Option.map_eq_some_iff] at hs
      obtain ⟨thread, hthread, rfl⟩ := hs
      exact hstart _ _ hthread
  | setName =>
    simp only [stepAlive, Option.ite_none_right_eq_some, Option.some.injEq] at hs
    obtain ⟨-, rfl⟩ := hs
    exact ⟨h.called, .inr rfl, h.func, h.data⟩
  | call throws =>
    simp only [stepAlive, Option.ite_none_right_eq_some, Option.map_eq_some_iff] at hs
    obtain ⟨-, g, hg, rfl⟩ := hs
    obtain rfl := h.data g hg
    rw [call, if_pos (.inr rfl)]
    exact ⟨by simp [h.called], h.pc, h.func, h.data⟩
  | deleteData =>
    simp only [stepAlive, Option.ite_none_right_eq_some, Option.some.injEq] at hs
    obtain ⟨hpc, -⟩ := hs
    rcases h.pc with hp | hp <;> rw [hp] at hpc <;> cases hpc
  | join | joinReturn | destroy =>
    simp only [stepAlive, Option.ite_none_right_eq_some, Option.some.injEq] at hs
    obtain ⟨-, rfl⟩ := hs
    exact ⟨h.called, h.pc, h.func, h.data⟩

/-- A `Thread` whose `start` has failed never runs its function: a later `start` ends in
`abort`, and without one `join` fails its assertion. -/
theorem failed_start_empties {t : ThreadLife φ} (h : (ThreadLives func).Reachable s)
    (hf : s.step (.start (.start false)) = some s') {as : List LifeLabel} (hr : (ThreadLives func).run s' as = some t) :
    t.called = [] ∧ t.pthread ≠ .joined ∧ (∀ throws t', t.step (.call throws) = some t' → t'.aborted = true) ∧
      (t.thread.started = false → t.step .join = none) := by
  have hreach : (ThreadLives func).Reachable s' := h.step hf
  have hi := reachable_lives (hreach.run hr)
  have hs' : Emptied s' := by
    have hlives := reachable_lives h
    obtain ⟨-, hs⟩ := step_eq hf
    simp only [stepAlive, Option.ite_none_right_eq_some, Option.map_eq_some_iff] at hs
    obtain ⟨-, thread, hthread, rfl⟩ := hs
    rcases Thread.step_pcs hthread with ⟨created, heq, hpc, -, rfl⟩ | ⟨hne, -⟩ | ⟨hne, -⟩
    · obtain rfl : false = created := StartLabel.start.inj heq
      have hrun := hlives.created_iff.2 hpc
      have hstarting := hlives.starting (by simp [hrun])
      refine ⟨(hlives.done_starting hstarting).1, .inl hstarting, fun _ => rfl, fun g hg => ?_⟩
      have hnone : s.data = none := hlives.data_iff.2 (.inl hrun)
      have hsome : s.data = some g := hg
      rw [hnone] at hsome
      cases hsome
    · exact absurd rfl (hne false)
    · exact absurd rfl (hne false)
  have he : Emptied t := Lts.System.run_inv_of (M := ThreadLives func) (I := Emptied) (Q := fun _ => True)
    (fun _ _ _ _ he hs => emptied_step he hs) (fun _ _ => trivial) hr hs'
  refine ⟨he.called, fun hp => ?_, fun throws t' ht => ?_, fun hstarted => ?_⟩
  · obtain ⟨hj, hjoining⟩ := hi.joined_iff.1 hp
    have hpc := hi.exited hj hjoining
    rcases he.pc with hp | hp <;> rw [hp] at hpc <;> cases hpc
  · obtain ⟨-, hs⟩ := step_eq ht
    simp only [stepAlive, Option.ite_none_right_eq_some, Option.map_eq_some_iff] at hs
    obtain ⟨-, g, hg, rfl⟩ := hs
    rw [call, if_pos (.inr (he.data g hg))]
  · simp [step, stepAlive, hstarted]

/-- The second `start` succeeds. -/
theorem failed_start_empties_again : ∃ t : ThreadLife Nat, t.pc = .named ∧ t.called = [] ∧
    ∀ throws t', t.step (.call throws) = some t' → t'.aborted = true := by
  have hf : (create (some 5)).step (.start (.start false)) = some { create (some 5) with func := none } := rfl
  have hr : (ThreadLives (some 5)).run { create (some 5) with func := none } [.start (.start true), .start .wait,
      .start (.storeTid 7), .start .countDown, .setName] = some _ := rfl
  have h := failed_start_empties (.init rfl) hf hr
  exact ⟨_, rfl, h.1, h.2.2.1⟩

end ThreadLife

end Ycnt

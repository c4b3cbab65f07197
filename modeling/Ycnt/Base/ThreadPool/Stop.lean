import Ycnt.Base.ThreadPool
/-!
# Stopping a thread pool

`ThreadPool::stop` clears a worker's `running_`, pushes a task to wake the
worker, and joins it. A `push` before a full queue sleeps on `notFull_`, which
nobody notifies, and a worker that sees `running_` cleared leaves its loop
without taking anything out: the `push` has to find room at once.
-/

namespace Ycnt

open Function

variable {n : Nat} {τ φ : Type*} [DecidableEq τ] {initCallback : Option φ} {maxQueueSize : Nat}

namespace Worker

variable {wk wk' : Worker τ φ}

/-- The worker's thread keeps `running_`, and a stopped worker's thread waits in
`pop` only where it did before. -/
theorem runInThread_stop (h : wk.runInThread maxQueueSize = some wk') :
    wk'.pc ≠ .new ∧ wk'.running = wk.running ∧
      (wk.running = false → wk'.pc = .pop → wk.pc = .pop ∧ wk.tasks.queue = []) := by
  cases hpc : wk.pc with
  | new => simp [runInThread, hpc] at h
  | finished => simp [runInThread, hpc] at h
  | created | executing task =>
    simp only [runInThread, hpc, Option.some.injEq] at h
    subst h
    simp
  | test =>
    simp only [runInThread, hpc, Option.some.injEq] at h
    subst h
    cases hr : wk.running <;> simp
  | got task =>
    simp only [runInThread, hpc] at h
    split at h <;> (simp only [Option.some.injEq] at h; subst h; simp)
  | pop =>
    simp only [runInThread, hpc, Option.map_eq_some_iff, queue] at h
    obtain ⟨w, ⟨q, -, rfl⟩, rfl⟩ := h
    cases wk.tasks.queue <;> simp

/-- A worker in its loop goes on, unless it sleeps before an empty queue. -/
theorem runInThread_isSome (hi : wk.Ok initCallback) (hs : wk.tasks.ConsumersServed) (hn : wk.pc ≠ .new)
    (hf : wk.pc ≠ .finished) (hq : wk.pc = .pop → wk.tasks.queue ≠ []) : (wk.runInThread maxQueueSize).isSome := by
  cases hpc : wk.pc with
  | new => exact absurd hpc hn
  | finished => exact absurd hpc hf
  | created | test | executing task => simp [runInThread, hpc]
  | got task =>
    simp only [runInThread, hpc]
    split <;> rfl
  | pop =>
    have hp := hi.pushing
    cases ht : wk.tasks.thread .worker with
    | idle => simp [runInThread, hpc, ht, queue, QueueState.step]
    | popAwake => simp [runInThread, hpc, ht, queue, QueueState.step]
    | popAsleep => exact absurd (hs .worker ht) (hq hpc)
    | pushAsleep x => simp [ht, QueuePc.pushing] at hp
    | pushAwake x => simp [ht, QueuePc.pushing] at hp

theorem queue_served {a : QueueLabel (Caller τ) (Task φ)} (hs : wk.tasks.ConsumersServed)
    (h : wk.queue maxQueueSize a = some wk') : wk'.tasks.ConsumersServed := by
  obtain ⟨q, hq, rfl⟩ := Option.map_eq_some_iff.1 h
  exact QueueState.consumersServed_step hs hq

theorem runInThread_served (hs : wk.tasks.ConsumersServed) (h : wk.runInThread maxQueueSize = some wk') :
    wk'.tasks.ConsumersServed := by
  cases hpc : wk.pc with
  | new => simp [runInThread, hpc] at h
  | finished => simp [runInThread, hpc] at h
  | created | test | executing task =>
    simp only [runInThread, hpc, Option.some.injEq] at h
    exact h ▸ hs
  | got task =>
    simp only [runInThread, hpc] at h
    split at h <;> (simp only [Option.some.injEq] at h; exact h ▸ hs)
  | pop =>
    simp only [runInThread, hpc, Option.map_eq_some_iff] at h
    obtain ⟨w, hw, rfl⟩ := h
    have hw' : w.tasks.ConsumersServed := queue_served hs hw
    exact hw'

theorem push_served {c : Caller τ} {x : Task φ} (hs : wk.tasks.ConsumersServed) :
    (wk.push maxQueueSize c x).tasks.ConsumersServed := by
  rcases QueueState.push_cases (fun size => decide (maxQueueSize ≤ size)) wk.tasks c x with ⟨-, hq⟩ | ⟨-, hq⟩
  · rw [push, hq]
    intro u hu
    by_cases huc : u = c
    · subst huc; simp at hu
    · exact hs u (by simpa [huc] using hu)
  · rw [push, hq]
    exact fun u hu => absurd hu (QueueState.notifyPop_ne _ u)

/-- A section of `push` leaves no fewer elements. -/
theorem push_queue_ne_nil {c : Caller τ} {x : Task φ} (h : wk.tasks.queue ≠ []) :
    (wk.push maxQueueSize c x).tasks.queue ≠ [] := by
  rcases push_outcome maxQueueSize wk c x with ⟨-, -, hq, -⟩ | ⟨-, -, hq, -⟩
  · rwa [hq]
  · simp [hq]

end Worker

namespace PoolState

variable {s s' : PoolState n τ φ} {w : Fin n}

/-- `stop` has been called and has not returned. -/
def Stopping (s : PoolState n τ φ) : Prop :=
  ∃ v, s.owner = .stopping v ∨ s.owner = .stopPush v ∨ s.owner = .stopJoin v

/-- Neither the thread in `stop` nor any worker's thread can take a step. -/
def Stuck (maxQueueSize : Nat) (s : PoolState n τ φ) : Prop :=
  s.Stopping ∧ s.step maxQueueSize .owner = none ∧ ∀ w, s.step maxQueueSize (.worker w) = none

/-- The wake-up task finds room in the worker's queue. -/
def WakeupFits (maxQueueSize : Nat) (s : PoolState n τ φ) (a : PoolLabel n τ φ) : Prop :=
  a = .owner → ∀ w : Fin n, s.owner = .stopPush w → (s.worker w).tasks.queue.length < maxQueueSize

/-! ## Guarded runs -/

/-- What holds in a run in which every wake-up task finds room. -/
structure StopInv (s : PoolState n τ φ) : Prop where
  served : ∀ w, (s.worker w).tasks.ConsumersServed
  started : ∀ w : Fin n, (s.worker w).pc = .new → s.owner.Unstarted w
  cleared : ∀ v, s.owner = .stopPush v ∨ s.owner = .stopJoin v → ∃ w : Fin n, (w : Nat) = v ∧ (s.worker w).running = false
  /-- The wake-up task, or one before it, is still there for a worker that is to be joined. -/
  waiting : ∀ w : Fin n, s.owner = .stopJoin w → (s.worker w).pc = .pop → (s.worker w).tasks.queue ≠ []
  awake : ∀ w, s.pushing w .owner = none

omit [DecidableEq τ] in
theorem create_stopInv : (create initCallback : PoolState n τ φ).StopInv := by
  refine ⟨fun w c h => ?_, fun w _ => trivial, fun v h => ?_, fun w h => ?_, fun w => ?_⟩
  · simp [create, Worker.create, QueueState.empty] at h
  · simp [create] at h
  · simp [create] at h
  · simp [pushing, create, Worker.create, QueueState.empty, QueuePc.pushing]

omit [DecidableEq τ] in
/-- The owner goes on; where it comes to `push` or `join`, the worker it is at
has been stopped, and has its task. -/
theorem StopInv.setOwner {o : OwnerPc} {running : Bool} (hi : s.StopInv)
    (hun : ∀ w : Fin n, s.owner.Unstarted w → o.Unstarted w ∨ (s.worker w).pc ≠ .new)
    (hclear : ∀ v, o = .stopPush v ∨ o = .stopJoin v → ∃ w : Fin n, (w : Nat) = v ∧ (s.worker w).running = false)
    (hwait : ∀ w : Fin n, o = .stopJoin w → (s.worker w).tasks.queue ≠ []) :
    ({ s with running := running, owner := o } : PoolState n τ φ).StopInv :=
  ⟨hi.served, fun w hw => (hun w (hi.started w hw)).resolve_right fun h => h hw, hclear, fun w hw _ => hwait w hw, hi.awake⟩

omit [DecidableEq τ] in
/-- A worker changes. -/
theorem StopInv.setWorker {wk : Worker τ φ} (hi : s.StopInv) (hs : wk.tasks.ConsumersServed)
    (hnew : wk.pc = .new → (s.worker w).pc = .new)
    (hrun : s.owner = .stopPush w ∨ s.owner = .stopJoin w → (s.worker w).running = false → wk.running = false)
    (hwait : s.owner = .stopJoin w → wk.pc = .pop → wk.tasks.queue ≠ [])
    (hpush : (wk.tasks.thread .owner).pushing = none) : (s.setWorker w wk).StopInv := by
  refine ⟨fun v => ?_, fun v hv => ?_, fun v hv => ?_, fun v ho hv => ?_, fun v => ?_⟩
  · by_cases hvw : v = w
    · subst hvw; rwa [setWorker_self]
    · rw [setWorker_of_ne _ hvw]; exact hi.served v
  · by_cases hvw : v = w
    · subst hvw; rw [setWorker_self] at hv; exact hi.started v (hnew hv)
    · rw [setWorker_of_ne _ hvw] at hv; exact hi.started v hv
  · obtain ⟨u, hu, hr⟩ := hi.cleared v hv
    refine ⟨u, hu, ?_⟩
    by_cases huw : u = w
    · subst huw; subst hu; rw [setWorker_self]; exact hrun hv hr
    · rw [setWorker_of_ne _ huw, hr]
  · by_cases hvw : v = w
    · subst hvw; rw [setWorker_self] at hv ⊢; exact hwait ho hv
    · rw [setWorker_of_ne _ hvw] at hv ⊢; exact hi.waiting v ho hv
  · by_cases hvw : v = w
    · subst hvw; rwa [pushing, setWorker_self]
    · rw [pushing, setWorker_of_ne _ hvw]; exact hi.awake v

/-- A client's section of `push`. -/
theorem StopInv.client_push {t : τ} {x : Task φ} {calls : List (PoolCall n τ φ)} (hi : s.StopInv) :
    ({ s.setClient t w ((s.worker w).push maxQueueSize (.client t) x) with calls := calls } : PoolState n τ φ).StopInv := by
  have h : (s.setWorker w ((s.worker w).push maxQueueSize (.client t) x)).StopInv := by
    refine hi.setWorker (Worker.push_served (hi.served w)) (fun h => h) (fun _ hr => hr)
      (fun ho hp => Worker.push_queue_ne_nil (hi.waiting w ho hp)) ?_
    rw [Worker.push_pushing_of_ne (by simp)]
    exact hi.awake w
  exact ⟨h.served, h.started, h.cleared, h.waiting, h.awake⟩

theorem ownerStep_stopInv (hi : s.Inv initCallback) (hs : s.StopInv) (hg : WakeupFits maxQueueSize s .owner)
    (h : s.ownerStep maxQueueSize = some s') : s'.StopInv := by
  cases ownerStep_cases hi h with
  | @start w ho =>
    have hw : (s.setWorker w { s.worker w with running := true, pc := .created }).StopInv :=
      hs.setWorker (hs.served w) (fun h => nomatch h) (fun ho' => by simp [ho] at ho') (fun _ h => nomatch h) (hs.awake w)
    refine hw.setOwner (fun v hv => ?_) (by simp) (by simp)
    by_cases hvw : v = w
    · subst hvw; simp
    · have hv' : (w : Nat) ≤ v := by simpa [PoolState.setWorker, ho, OwnerPc.Unstarted] using hv
      exact .inl (Nat.lt_of_le_of_ne hv' fun h => hvw (Fin.ext h.symm))
  | awaited ho =>
    refine hs.setOwner (fun v hv => ?_) (by simp) (by simp)
    simp only [ho, OwnerPc.Unstarted] at hv ⊢
    exact .inl hv
  | started hw ho =>
    refine hs.setOwner (fun v hv => ?_) (by simp) (by simp)
    simp only [ho, OwnerPc.Unstarted] at hv
    omega
  | @stop w ho =>
    have hw : (s.setWorker w { s.worker w with running := false }).StopInv :=
      hs.setWorker (hs.served w) (fun h => h) (fun _ _ => rfl) (fun ho' => by simp [ho] at ho') (hs.awake w)
    refine hw.setOwner (fun v hv => ?_) (fun v hv => ⟨w, by simpa using hv, by simp⟩) (by simp)
    simp [PoolState.setWorker, ho, OwnerPc.Unstarted] at hv
  | @push w wk ho hwk =>
    subst hwk
    -- The queue has room: the task is in it, and the owner goes to `join`.
    rcases Worker.push_outcome maxQueueSize (s.worker w) .owner .wakeup with ⟨hfull, -⟩ | ⟨-, hnone, hq, -⟩
    · exact absurd (hg rfl w ho) (Nat.not_lt.2 hfull)
    · simp only [hnone, Option.isSome_none, Bool.false_eq_true, if_false]
      have hw : (s.setWorker w ((s.worker w).push maxQueueSize .owner .wakeup)).StopInv :=
        hs.setWorker (Worker.push_served (hs.served w)) (fun h => h) (fun _ hr => hr) (fun ho' => by simp [ho] at ho') hnone
      obtain ⟨u, hu, hr⟩ := hs.cleared w (.inl ho)
      obtain rfl : u = w := Fin.ext hu
      refine hw.setOwner (fun v hv => ?_) (fun v hv => ⟨u, by simpa using hv, ?_⟩) fun v hv => ?_
      · simp [PoolState.setWorker, ho, OwnerPc.Unstarted] at hv
      · rw [setWorker_self]; exact hr
      · obtain rfl : u = v := Fin.ext (by simpa using hv)
        rw [setWorker_self, hq]
        simp
  | joined ho => exact hs.setOwner (fun v hv => by simp [ho, OwnerPc.Unstarted] at hv) (by simp) (by simp)
  | stopped _ ho => exact hs.setOwner (fun v hv => by simp [ho, OwnerPc.Unstarted] at hv) (by simp) (by simp)

theorem step_stopInv {a : PoolLabel n τ φ} (hi : s.Inv initCallback) (hs : s.StopInv) (hg : WakeupFits maxQueueSize s a)
    (h : s.step maxQueueSize a = some s') : s'.StopInv := by
  cases a with
  | start =>
    simp only [step, Option.ite_none_right_eq_some, Option.some.injEq] at h
    obtain ⟨-, rfl⟩ := h
    exact hs.setOwner (fun v _ => .inl (Nat.zero_le v)) (by simp) (by simp)
  | stop =>
    simp only [step, Option.ite_none_right_eq_some, Option.some.injEq] at h
    obtain ⟨ho, rfl⟩ := h
    exact hs.setOwner (fun v hv => by simp [ho, OwnerPc.Unstarted] at hv) (by simp) (by simp)
  | owner => exact ownerStep_stopInv hi hs hg h
  | worker w =>
    obtain ⟨wk, hwk, rfl⟩ := Option.map_eq_some_iff.1 h
    obtain ⟨-, -, hc⟩ := Worker.runInThread_quiet (hi.ok w) hwk
    obtain ⟨hnew, hrun, hpop⟩ := Worker.runInThread_stop hwk
    refine hs.setWorker (Worker.runInThread_served (hs.served w) hwk) (fun h => absurd h hnew) (fun _ hr => hrun.trans hr)
      (fun ho hp => ?_) ((hc .owner).trans (hs.awake w))
    -- A worker that is to be joined finds a task in its last `pop`.
    obtain ⟨u, hu, hr⟩ := hs.cleared w (.inr ho)
    obtain rfl : u = w := Fin.ext hu
    obtain ⟨hp', hq⟩ := hpop hr hp
    exact absurd hq (hs.waiting u ho hp')
  | run t f workerId pick =>
    simp only [step] at h
    split at h
    · cases h
    · obtain ⟨wk, hwk, rfl⟩ := Option.map_eq_some_iff.1 h
      obtain ⟨-, rfl⟩ := Worker.queue_push hwk
      exact hs.client_push
  | resume t =>
    obtain ⟨w, -, h⟩ := Option.bind_eq_some_iff.1 h
    obtain ⟨wk, hwk, rfl⟩ := Option.map_eq_some_iff.1 h
    obtain ⟨x, -, rfl⟩ := Worker.queue_resume (hi.ok w) (by simp) hwk
    exact hs.client_push
  | spurious w c =>
    obtain ⟨wk, hwk, rfl⟩ := Option.map_eq_some_iff.1 h
    obtain ⟨hpc, hq, -, hc⟩ := Worker.spurious_quiet hwk
    refine hs.setWorker (Worker.queue_served (hs.served w) hwk) (fun h => hpc ▸ h) (fun _ hr => ?_) (fun ho hp => ?_)
      ((hc .owner).trans (hs.awake w))
    · obtain ⟨q, -, rfl⟩ := Option.map_eq_some_iff.1 hwk
      exact hr
    · rw [hq]
      exact hs.waiting w ho (hpc ▸ hp)

/-- In such a state either the thread in `stop` or the worker it waits for goes on. -/
theorem not_stuck (hi : s.Inv initCallback) (hs : s.StopInv) : ¬ s.Stuck maxQueueSize := by
  rintro ⟨⟨v, ho | ho | ho⟩, howner, hworker⟩
  · simp only [step, ownerStep, ho] at howner
    split at howner <;> cases howner
  · obtain ⟨w, rfl, -⟩ := hs.cleared v (.inl ho)
    have hidle : (s.worker w).tasks.thread .owner = .idle := by
      have hpush : ((s.worker w).tasks.thread .owner).pushing = none := hs.awake w
      have hpop : ((s.worker w).tasks.thread .owner).popping = false := by
        cases hp : ((s.worker w).tasks.thread .owner).popping with
        | false => rfl
        | true => exact absurd ((hi.ok w).popping .owner hp).1 (by simp)
      cases ht : (s.worker w).tasks.thread .owner <;> simp_all [QueuePc.pushing, QueuePc.popping]
    simp [step, ownerStep, ho, hidle, Worker.queue, QueueState.step] at howner
  · obtain ⟨w, rfl, -⟩ := hs.cleared v (.inr ho)
    have hpc : (s.worker w).pc ≠ .finished := fun hpc => by simp [step, ownerStep, ho, hpc] at howner
    have hnew : (s.worker w).pc ≠ .new := fun hpc => by
      have := hs.started w hpc
      simp [ho, OwnerPc.Unstarted] at this
    have hsome : ((s.worker w).runInThread maxQueueSize).isSome :=
      Worker.runInThread_isSome (hi.ok w) (hs.served w) hnew hpc (hs.waiting w ho)
    have hnone := hworker w
    simp only [step, Option.map_eq_none_iff] at hnone
    simp [hnone] at hsome

end PoolState

namespace ThreadPool

/-- A run in which each wake-up task finds room never jams in `stop`. -/
theorem stop_not_stuck {s : PoolState n τ φ} {as : List (PoolLabel n τ φ)}
    (h0 : (ThreadPool n τ φ initCallback maxQueueSize).init s)
    (hg : (ThreadPool n τ φ initCallback maxQueueSize).Guarded
      (PoolState.WakeupFits (queueCapacity maxQueueSize)) s as) :
    (ThreadPool n τ φ initCallback maxQueueSize).Always (fun s => ¬ s.Stuck (queueCapacity maxQueueSize)) s as := by
  have hinv := Lts.System.Guarded.always (I := fun s : PoolState n τ φ => s.Inv initCallback ∧ s.StopInv)
    (fun s a s' hi hg h => ⟨PoolState.step_inv hi.1 h, PoolState.step_stopInv hi.1 hi.2 hg h⟩)
    (by rw [h0.2]; exact ⟨PoolState.create_inv, PoolState.create_stopInv⟩) hg
  exact hinv.mono fun s hi => PoolState.not_stuck hi.1 hi.2

/-- One worker with a queue for two tasks, stopped before it has taken the initial
callback: `stop` pushes its wake-up task and goes on to join. -/
theorem stop_not_stuck_two :
    (∃ s, (ThreadPool 1 Nat Nat (some 0) 2).run (.create (some 0))
        [.start, .owner, .worker 0, .owner, .owner, .stop, .owner, .owner] = some s ∧ s.owner = .stopJoin 0) ∧
      (ThreadPool 1 Nat Nat (some 0) 2).Always (fun s => ¬ s.Stuck (queueCapacity 2))
        (.create (some 0)) [.start, .owner, .worker 0, .owner, .owner, .stop, .owner, .owner] := by
  have h0 : (ThreadPool 1 Nat Nat (some 0) 2).init (.create (some 0)) := ⟨by decide, rfl⟩
  have hother : ∀ {s : PoolState 1 Nat Nat} {a : PoolLabel 1 Nat Nat}, (∀ w, s.owner ≠ .stopPush w) ∨ a ≠ .owner →
      PoolState.WakeupFits (queueCapacity 2) s a :=
    fun h ha w hw => h.elim (fun h => absurd hw (h w)) fun h => absurd ha h
  refine ⟨⟨_, rfl, rfl⟩, stop_not_stuck h0 ?_⟩
  refine .of_step rfl (hother (.inr nofun)) (.of_step rfl (hother (.inl nofun)) ?_)
  refine .of_step rfl (hother (.inr nofun)) (.of_step rfl (hother (.inl nofun)) ?_)
  refine .of_step rfl (hother (.inl nofun)) (.of_step rfl (hother (.inr nofun)) ?_)
  refine .of_step rfl (hother (.inl nofun)) (.of_step rfl (fun _ w _ => ?_) trivial)
  -- The queue holds the initial callback and has room for the wake-up task.
  obtain rfl := Subsingleton.elim 0 w
  decide

/-- One worker with a queue for one task. `stop` clears `running_`, the worker
leaves its loop with the initial callback still in the queue, and the `push` of
the wake-up task sleeps for ever. -/
theorem stop_stuck_one : ∃ s, (ThreadPool 1 Nat Nat (some 0) 1).run (.create (some 0))
      [.start, .owner, .worker 0, .owner, .owner, .stop, .owner, .worker 0, .owner] = some s ∧
    s.Stuck (queueCapacity 1) := by
  refine ⟨_, rfl, ⟨0, .inr (.inl rfl)⟩, rfl, fun w => ?_⟩
  obtain rfl := Subsingleton.elim 0 w
  rfl

end ThreadPool

end Ycnt

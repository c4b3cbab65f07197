import Ycnt.Lib.Variant
import Ycnt.Base.ThreadPool.Stop
/-!
# What a thread pool does in the end

The steps left to the pool's own threads are counted, four for each task in a
queue, so that each of their steps lowers the count and a call of `run` adds a
few. A pool that is left alone therefore comes to rest. At rest a started pool
has executed what it was given, and one that is being stopped is stopped: each
task has then been executed or is still in its queue.
-/

namespace Ycnt

open Function

/-- A thread that is not asleep in the queue. -/
def QueuePc.awake {α : Type*} : QueuePc α → Nat
  | .pushAsleep _ | .popAsleep => 0
  | _ => 1

def WorkerPc.work {φ : Type*} : WorkerPc φ → Nat
  | .new | .pop | .finished => 0
  | .test => 1
  | .created | .executing _ => 2
  | .got _ => 3

/-- The steps left in `start` and `stop` of a pool of `n` workers, with those
they make for the workers. -/
def OwnerPc.work (n : Nat) : OwnerPc → Nat
  | .constructed => 4 + 12 * n
  | .starting w => 3 + 8 * n + 4 * (n - w)
  | .startWait w => 4 + 8 * n + 4 * (n - (w + 1))
  | .started => 2 + 8 * n
  | .stopping w => 1 + 8 * (n - w)
  | .stopPush w => 8 + 8 * (n - (w + 1))
  | .stopJoin w => 2 + 8 * (n - (w + 1))
  | .stopped => 0

/-- Worker `w` runs: it has been started and not yet been asked to stop. -/
def OwnerPc.Going (w : Nat) : OwnerPc → Prop
  | .starting v => w < v
  | .startWait v => w ≤ v
  | .started => True
  | .stopping v => v ≤ w
  | .stopPush v | .stopJoin v => v < w
  | _ => False

/-- The owner has joined worker `w`. -/
def OwnerPc.Joined (w : Nat) : OwnerPc → Prop
  | .stopping v | .stopPush v | .stopJoin v => w < v
  | .stopped => True
  | _ => False

/-- A step that none of the pool's threads takes by itself: a section of `run`, or
a spurious wakeup. -/
def PoolLabel.fromOutside {n : Nat} {τ φ : Type*} : PoolLabel n τ φ → Bool
  | .run .. | .resume _ | .spurious .. => true
  | _ => false

variable {n : Nat} {τ φ : Type*} [DecidableEq τ] {initCallback : Option φ} {maxQueueSize : Nat}

theorem QueuePc.awake_le {α : Type*} (pc : QueuePc α) : pc.awake ≤ 1 := by
  cases pc <;> simp [awake]

theorem QueueState.notifyPop_awake {σ α : Type*} (thread : σ → QueuePc α) (u : σ) :
    (QueueState.notifyPop thread u).awake ≤ 1 ∧
      ((thread u).popping = false → (QueueState.notifyPop thread u).awake = (thread u).awake) := by
  refine ⟨QueuePc.awake_le _, fun h => ?_⟩
  unfold QueueState.notifyPop
  split
  · rename_i hu
    simp [hu, QueuePc.popping] at h
  · rfl

namespace Worker

variable {wk wk' : Worker τ φ}

/-- The steps left to a worker, four for each task in its queue, and whether the
worker and the owner are awake in it. -/
def work (wk : Worker τ φ) : Nat :=
  4 * wk.tasks.queue.length + wk.pc.work + (wk.tasks.thread .worker).awake + (wk.tasks.thread .owner).awake

theorem runInThread_work (hi : wk.Ok initCallback) (h : wk.runInThread maxQueueSize = some wk') : wk'.work < wk.work := by
  cases hpc : wk.pc with
  | new | finished => simp [runInThread, hpc] at h
  | created | executing task =>
    simp only [runInThread, hpc, Option.some.injEq] at h
    subst h
    simp only [work, hpc, WorkerPc.work]
    omega
  | test =>
    simp only [runInThread, hpc, Option.some.injEq] at h
    subst h
    cases wk.running <;> simp [work, hpc, WorkerPc.work]
  | got task =>
    simp only [runInThread, hpc] at h
    split at h <;> (simp only [Option.some.injEq] at h; subst h; simp only [work, hpc, WorkerPc.work]; omega)
  | pop =>
    obtain ⟨hawake, rfl⟩ := runInThread_pop hi hpc h
    have hone : (wk.tasks.thread .worker).awake = 1 := by
      rcases hawake with h | h <;> rw [h] <;> rfl
    have howner : Caller.owner ≠ (Caller.worker : Caller τ) := by simp
    rcases QueueState.pop_cases wk.tasks .worker with ⟨hq, hp⟩ | ⟨task, rest, hq, hp⟩
    · have hasleep : (QueuePc.popAsleep : QueuePc (Task φ)).awake = 0 := rfl
      simp only [work, hp, hq, hpc, hone, hasleep, WorkerPc.work, update_self, update_of_ne howner]
      omega
    · have hidle : (QueuePc.idle : QueuePc (Task φ)).awake = 1 := rfl
      simp only [work, hp, hq, hpc, hone, hidle, WorkerPc.work, update_self, update_of_ne howner, List.length_cons]
      omega

/-- A section of `push` either puts the caller to sleep or leaves the worker five
steps more at most. -/
theorem push_work (maxQueueSize : Nat) {c : Caller τ} (x : Task φ) (hi : wk.Ok initCallback) (hc : c ≠ .worker)
    (hawake : (wk.tasks.thread c).awake = 1) :
    ((wk.push maxQueueSize c x).tasks.thread c).pushing = some x ∧
        (wk.push maxQueueSize c x).work + (if c = .owner then 1 else 0) = wk.work ∨
      ((wk.push maxQueueSize c x).tasks.thread c).pushing = none ∧ (wk.push maxQueueSize c x).work ≤ wk.work + 5 := by
  have howner : (wk.tasks.thread .owner).popping = false := by
    cases hp : (wk.tasks.thread .owner).popping with
    | false => rfl
    | true => exact absurd (hi.popping .owner hp).1 (by simp)
  rcases QueueState.push_cases (fun size => decide (maxQueueSize ≤ size)) wk.tasks c x with ⟨-, hq⟩ | ⟨-, hq⟩
  · refine .inl ⟨by simp [push, hq, QueuePc.pushing], ?_⟩
    simp only [work, push, hq, update_of_ne (Ne.symm hc)]
    split
    · rename_i hco
      subst hco
      rw [update_self, hawake, QueuePc.awake]
    · rename_i hco
      rw [update_of_ne (Ne.symm hco)]
      rfl
  · have hnone : ((wk.push maxQueueSize c x).tasks.thread c).pushing = none := by
      simp only [push, hq, QueueState.notifyPop_pushing, update_self]
      rfl
    refine .inr ⟨hnone, ?_⟩
    have hworker := (QueueState.notifyPop_awake (update wk.tasks.thread c .idle) .worker).1
    have hsame : (QueueState.notifyPop (update wk.tasks.thread c .idle) .owner).awake = (wk.tasks.thread .owner).awake := by
      by_cases hco : c = .owner
      · subst hco
        rw [(QueueState.notifyPop_awake _ _).2 (by simp [QueuePc.popping]), update_self, hawake]
        rfl
      · rw [(QueueState.notifyPop_awake _ _).2 (by rwa [update_of_ne (Ne.symm hco)]), update_of_ne (Ne.symm hco)]
    simp only [work, push, hq, hsame, List.length_append, List.length_singleton]
    omega

theorem spurious_work {c : Caller τ} (h : wk.queue maxQueueSize (.spurious c) = some wk') : wk'.work ≤ wk.work + 2 := by
  obtain ⟨q, hq, rfl⟩ := Option.map_eq_some_iff.1 h
  have hworker := (q.thread .worker).awake_le
  have howner := (q.thread .owner).awake_le
  have hqueue : q.queue = wk.tasks.queue := by
    rcases QueueState.step_spurious_iff.1 hq with ⟨x, -, rfl⟩ | ⟨-, rfl⟩ <;> rfl
  simp only [work, hqueue]
  omega

theorem mem_push_of_mem {c : Caller τ} {x y : Task φ} (h : y ∈ wk.tasks.pushed) :
    y ∈ (wk.push maxQueueSize c x).tasks.pushed := by
  rcases push_outcome maxQueueSize wk c x with ⟨-, -, -, hp⟩ | ⟨-, -, -, hp⟩
  · rwa [hp]
  · rw [hp]
    exact List.mem_append_left _ h

/-- A worker that is to go on stays in its loop. -/
theorem runInThread_going (h : wk.runInThread maxQueueSize = some wk') (hr : wk.running = true) :
    wk'.running = true ∧ wk'.pc ≠ .new ∧ wk'.pc ≠ .finished := by
  obtain ⟨hnew, hrun, -⟩ := runInThread_stop h
  refine ⟨hrun.trans hr, hnew, ?_⟩
  cases hpc : wk.pc with
  | new | finished => simp [runInThread, hpc] at h
  | created | test | executing task =>
    simp only [runInThread, hpc, hr, Option.some.injEq] at h
    subst h
    simp
  | got task =>
    simp only [runInThread, hpc] at h
    split at h <;> (cases h; simp)
  | pop =>
    simp only [runInThread, hpc, Option.map_eq_some_iff] at h
    obtain ⟨w, -, rfl⟩ := h
    cases wk.tasks.queue <;> simp

omit [DecidableEq τ] in
/-- The tasks that went through a worker which has none in hand have been executed. -/
theorem Ok.completed_eq (hi : wk.Ok initCallback) (hpc : wk.pc = .pop ∨ wk.pc = .finished) :
    wk.tasks.pushed.filter Task.callable = wk.completed ++ wk.tasks.queue.filter Task.callable := by
  have htaken := hi.taken
  have hbegun := hi.begun
  rcases hpc with hpc | hpc
  all_goals
    rw [hpc] at htaken hbegun
    simp only [WorkerPc.inHand, WorkerPc.underWay, List.filter_nil, List.append_nil] at htaken hbegun
    rw [hi.fifo, List.filter_append, htaken, hbegun]

end Worker

namespace PoolState

variable {s s' : PoolState n τ φ} {w : Fin n}

/-- The steps left to the pool's threads. -/
noncomputable def work (s : PoolState n τ φ) : Nat := finsum (Worker.work ∘ s.worker) + s.owner.work n

omit [DecidableEq τ] in
theorem create_work : (create initCallback : PoolState n τ φ).work = 18 * n + 4 := by
  have hworker : (Worker.create initCallback : Worker τ φ).work = 6 := rfl
  simp only [work, create, finsum_eq_sum_of_fintype, comp_apply, hworker, Finset.sum_const, Finset.card_univ,
    Fintype.card_fin, smul_eq_mul, OwnerPc.work]
  omega

omit [DecidableEq τ] in
/-- A worker and the owner change. -/
theorem work_setWorker (wk : Worker τ φ) (t : PoolState n τ φ) (ht : t.worker = update s.worker w wk) :
    t.work + ((s.worker w).work + s.owner.work n) = s.work + (wk.work + t.owner.work n) := by
  have hsum := Work.finsum_update (f := Worker.work ∘ s.worker) (Set.toFinite _) w wk.work
  simp only [work, ht, comp_update, comp_apply] at hsum ⊢
  omega

/-- The owner at a `push` is not asleep in it, if it has a step. -/
theorem ownerStep_awake (ho : s.owner = .stopPush w) (h : s.ownerStep maxQueueSize = some s') :
    ((s.worker w).tasks.thread .owner).awake = 1 := by
  cases ht : (s.worker w).tasks.thread .owner with
  | pushAsleep x | popAsleep => simp [ownerStep, ho, ht, Worker.queue, QueueState.step] at h
  | _ => rfl

theorem ownerStep_work (hi : s.Inv initCallback) (h : s.ownerStep maxQueueSize = some s') : s'.work < s.work := by
  cases ownerStep_cases hi h with
  | @start w ho =>
    have hpc : (s.worker w).pc = .new := hi.unstarted w (by simp [ho, OwnerPc.Unstarted])
    have hsum := work_setWorker (s := s) (w := w) { s.worker w with running := true, pc := .created }
      ({ s with owner := .startWait w }.setWorker w { s.worker w with running := true, pc := .created }) rfl
    simp only [setWorker, Worker.work, hpc, ho, WorkerPc.work, OwnerPc.work] at hsum ⊢
    omega
  | @awaited w ho =>
    simp only [work, ho, OwnerPc.work]
    omega
  | started hw ho =>
    simp only [work, ho, OwnerPc.work]
    omega
  | @stop w ho =>
    have hsum := work_setWorker (s := s) (w := w) { s.worker w with running := false }
      ({ s with owner := .stopPush w }.setWorker w { s.worker w with running := false }) rfl
    simp only [setWorker, Worker.work, ho, OwnerPc.work] at hsum ⊢
    omega
  | @push w wk ho hwk =>
    subst hwk
    have hsum := work_setWorker (s := s) ((s.worker w).push maxQueueSize .owner .wakeup)
      { s.setWorker w ((s.worker w).push maxQueueSize .owner .wakeup) with
        owner := if (((s.worker w).push maxQueueSize .owner .wakeup).tasks.thread .owner).pushing.isSome then .stopPush w
          else .stopJoin w } rfl
    rcases Worker.push_work maxQueueSize .wakeup (hi.ok w) (by simp) (ownerStep_awake ho h) with ⟨hp, hw⟩ | ⟨hp, hw⟩
    · simp only [hp, Option.isSome_some, if_true, ho] at hsum hw ⊢
      omega
    · simp only [hp, Option.isSome_none, Bool.false_eq_true, if_false, ho, OwnerPc.work] at hsum ⊢
      omega
  | @joined w ho hpc =>
    simp only [work, ho, OwnerPc.work]
    omega
  | stopped hw ho =>
    simp only [work, ho, OwnerPc.work]
    omega

/-- A section of `push` in a call of `run`, new or woken. -/
theorem client_push_work {t : τ} {x : Task φ} {calls : List (PoolCall n τ φ)} (hi : s.Inv initCallback)
    (hawake : ((s.worker w).tasks.thread (.client t)).awake = 1) :
    ({ s.setClient t w ((s.worker w).push maxQueueSize (.client t) x) with calls := calls } : PoolState n τ φ).work ≤
      s.work + 5 := by
  have hsum := work_setWorker (s := s) ((s.worker w).push maxQueueSize (.client t) x)
    { s.setClient t w ((s.worker w).push maxQueueSize (.client t) x) with calls := calls } rfl
  rcases Worker.push_work maxQueueSize x (hi.ok w) (by simp) hawake with ⟨-, hw⟩ | ⟨-, hw⟩
  · simp only [setClient, setWorker, reduceCtorEq, if_false] at hsum hw ⊢
    omega
  · simp only [setClient, setWorker] at hsum hw ⊢
    omega

/-- Each step of the pool's threads lowers the work, and the others raise it by
less than six. -/
theorem step_work {a : PoolLabel n τ φ} (hi : s.Inv initCallback) (h : s.step maxQueueSize a = some s') :
    s'.work < s.work + if a.fromOutside then 6 else 0 := by
  cases a with
  | start | stop =>
    simp only [step, Option.ite_none_right_eq_some, Option.some.injEq] at h
    obtain ⟨ho, rfl⟩ := h
    simp only [work, ho, OwnerPc.work, PoolLabel.fromOutside, Bool.false_eq_true, if_false]
    omega
  | owner => exact ownerStep_work hi h
  | worker w =>
    obtain ⟨wk, hwk, rfl⟩ := Option.map_eq_some_iff.1 h
    have hlt := Worker.runInThread_work (hi.ok w) hwk
    have hsum := work_setWorker (s := s) wk (s.setWorker w wk) rfl
    simp only [setWorker, PoolLabel.fromOutside, Bool.false_eq_true, if_false] at hsum ⊢
    omega
  | run t f workerId pick =>
    simp only [step] at h
    split at h
    · cases h
    · obtain ⟨wk, hwk, rfl⟩ := Option.map_eq_some_iff.1 h
      obtain ⟨hidle, rfl⟩ := Worker.queue_push hwk
      exact Nat.lt_succ_of_le (client_push_work hi (by rw [hidle]; rfl))
  | resume t =>
    obtain ⟨w, -, h⟩ := Option.bind_eq_some_iff.1 h
    obtain ⟨wk, hwk, rfl⟩ := Option.map_eq_some_iff.1 h
    obtain ⟨x, hx, rfl⟩ := Worker.queue_resume (hi.ok w) (by simp) hwk
    exact Nat.lt_succ_of_le (client_push_work hi (by rw [hx]; rfl))
  | spurious w c =>
    obtain ⟨wk, hwk, rfl⟩ := Option.map_eq_some_iff.1 h
    have hle := Worker.spurious_work hwk
    have hsum := work_setWorker (s := s) wk (s.setWorker w wk) rfl
    simp only [setWorker, PoolLabel.fromOutside, if_true] at hsum ⊢
    omega

/-! ## Runs -/

/-- The `id`th call of `run`, `e`, has got its task into the queue or is still about it. -/
def Called (s : PoolState n τ φ) (id : Nat) (e : PoolCall n τ φ) : Prop :=
  .submitted id e.task ∈ (s.worker e.worker).tasks.pushed ∨
    s.pushing e.worker (.client e.caller) = some (.submitted id e.task)

/-- The workers the owner is not at are where it left them, and no call is forgotten. -/
structure Working (s : PoolState n τ φ) : Prop where
  served : ∀ w, (s.worker w).tasks.ConsumersServed
  going : ∀ w : Fin n, s.owner.Going w →
    (s.worker w).running = true ∧ (s.worker w).pc ≠ .new ∧ (s.worker w).pc ≠ .finished
  joined : ∀ w : Fin n, s.owner.Joined w → (s.worker w).pc = .finished
  called : ∀ id e, s.calls[id]? = some e → s.Called id e

omit [DecidableEq τ] in
theorem create_working : (create initCallback : PoolState n τ φ).Working := by
  refine ⟨fun w c h => ?_, fun w h => h.elim, fun w h => h.elim, fun id e h => ?_⟩
  · simp [create, Worker.create, QueueState.empty] at h
  · simp [create] at h

omit [DecidableEq τ] in
theorem Working.setOwner {o : OwnerPc} {running : Bool} (hw : s.Working)
    (hgo : ∀ w : Fin n, o.Going w →
      s.owner.Going w ∨ (s.worker w).running = true ∧ (s.worker w).pc ≠ .new ∧ (s.worker w).pc ≠ .finished)
    (hjoin : ∀ w : Fin n, o.Joined w → s.owner.Joined w ∨ (s.worker w).pc = .finished) :
    ({ s with running := running, owner := o } : PoolState n τ φ).Working :=
  ⟨hw.served, fun w h => (hgo w h).elim (hw.going w) id, fun w h => (hjoin w h).elim (hw.joined w) id, hw.called⟩

omit [DecidableEq τ] in
/-- A worker changes, and no client's `push`. -/
theorem Working.setWorker {wk : Worker τ φ} (hw : s.Working) (hs : wk.tasks.ConsumersServed)
    (hgo : s.owner.Going w → wk.running = true ∧ wk.pc ≠ .new ∧ wk.pc ≠ .finished)
    (hjoin : s.owner.Joined w → wk.pc = .finished) (hpushed : ∀ x ∈ (s.worker w).tasks.pushed, x ∈ wk.tasks.pushed)
    (hpushing : ∀ t, (wk.tasks.thread (.client t)).pushing = s.pushing w (.client t)) : (s.setWorker w wk).Working := by
  refine ⟨fun v => ?_, fun v hv => ?_, fun v hv => ?_, fun id e he => ?_⟩
  · by_cases hvw : v = w
    · subst hvw; rwa [setWorker_self]
    · rw [setWorker_of_ne _ hvw]; exact hw.served v
  · by_cases hvw : v = w
    · subst hvw; rw [setWorker_self]; exact hgo hv
    · rw [setWorker_of_ne _ hvw]; exact hw.going v hv
  · by_cases hvw : v = w
    · subst hvw; rw [setWorker_self]; exact hjoin hv
    · rw [setWorker_of_ne _ hvw]; exact hw.joined v hv
  · by_cases hew : e.worker = w
    · have hcalled := hw.called id e he
      rw [Called, hew] at hcalled
      rw [Called, pushing, hew, setWorker_self, hpushing]
      exact hcalled.imp_left (hpushed _)
    · rw [Called, pushing, setWorker_of_ne _ hew]
      exact hw.called id e he

/-- A section of `push` in a call of `run`: the task is the caller's own. -/
theorem Working.client_push {t : τ} {x : Task φ} {calls : List (PoolCall n τ φ)} (hw : s.Working)
    (hown : ∀ y, s.pushing w (.client t) = some y → y = x)
    (hcalls : ∀ id e, calls[id]? = some e → s.Called id e ∨ e.worker = w ∧ e.caller = t ∧ .submitted id e.task = x) :
    ({ s.setClient t w ((s.worker w).push maxQueueSize (.client t) x) with calls := calls } : PoolState n τ φ).Working := by
  refine ⟨fun v => ?_, fun v hv => ?_, fun v hv => ?_, fun id e he => ?_⟩
  · by_cases hvw : v = w
    · subst hvw
      simp only [setClient, setWorker_self]
      exact Worker.push_served (hw.served v)
    · simp only [setClient, setWorker_of_ne _ hvw]
      exact hw.served v
  · by_cases hvw : v = w
    · subst hvw
      simp only [setClient, setWorker_self]
      exact hw.going v hv
    · simp only [setClient, setWorker_of_ne _ hvw]
      exact hw.going v hv
  · by_cases hvw : v = w
    · subst hvw
      simp only [setClient, setWorker_self]
      exact hw.joined v hv
    · simp only [setClient, setWorker_of_ne _ hvw]
      exact hw.joined v hv
  · by_cases hew : e.worker = w
    · simp only [Called, pushing, setClient, hew, setWorker_self]
      -- The pushing client is asleep with its task, or has pushed it.
      have hself : .submitted id e.task = x → e.caller = t →
          .submitted id e.task ∈ ((s.worker w).push maxQueueSize (.client t) x).tasks.pushed ∨
            (((s.worker w).push maxQueueSize (.client t) x).tasks.thread (.client e.caller)).pushing =
              some (.submitted id e.task) := by
        rintro hx hc
        rw [hc, hx]
        rcases Worker.push_outcome maxQueueSize (s.worker w) (.client t) x with ⟨-, hp, -⟩ | ⟨-, -, -, hp⟩
        · exact .inr hp
        · exact .inl (by simp [hp])
      rcases hcalls id e he with (hmem | hpush) | ⟨-, hc, hx⟩
      · exact .inl (Worker.mem_push_of_mem (hew ▸ hmem))
      · rw [hew] at hpush
        by_cases hc : e.caller = t
        · exact hself (hown _ (hc ▸ hpush)) hc
        · refine .inr ?_
          rw [Worker.push_pushing_of_ne (by simpa using hc)]
          exact hpush
      · exact hself hx hc
    · simp only [Called, pushing, setClient, setWorker_of_ne _ hew]
      exact (hcalls id e he).resolve_right fun h => hew h.1

theorem ownerStep_working (hi : s.Inv initCallback) (hw : s.Working) (h : s.ownerStep maxQueueSize = some s') :
    s'.Working := by
  cases ownerStep_cases hi h with
  | @start w ho =>
    have hstarted : (s.setWorker w { s.worker w with running := true, pc := .created }).Working :=
      hw.setWorker (hw.served w) (fun h => by simp [ho, OwnerPc.Going] at h) (fun h => by simp [ho, OwnerPc.Joined] at h)
        (fun _ h => h) fun _ => rfl
    refine hstarted.setOwner (fun v hv => ?_) fun v hv => hv.elim
    by_cases hvw : v = w
    · subst hvw
      exact .inr ⟨by simp, by simp, by simp⟩
    · refine .inl ?_
      simp only [PoolState.setWorker, ho, OwnerPc.Going] at hv ⊢
      exact Nat.lt_of_le_of_ne hv fun h => hvw (Fin.ext h)
  | @awaited w ho =>
    refine hw.setOwner (fun v hv => .inl ?_) fun v hv => hv.elim
    simp only [ho, OwnerPc.Going] at hv ⊢
    exact Nat.le_of_lt_succ hv
  | started hn ho =>
    refine hw.setOwner (fun v _ => .inl ?_) fun v hv => hv.elim
    simp only [ho, OwnerPc.Going]
    exact Nat.lt_of_lt_of_le v.2 hn
  | @stop w ho =>
    have hstopped : ({ s with owner := .stopPush w } : PoolState n τ φ).Working := by
      refine hw.setOwner (fun v hv => .inl ?_) fun v hv => .inl ?_
      · simp only [ho, OwnerPc.Going] at hv ⊢
        exact Nat.le_of_lt hv
      · simpa [ho, OwnerPc.Joined] using hv
    exact hstopped.setWorker (hw.served w) (fun h => by simp [OwnerPc.Going] at h)
      (fun h => by simp [OwnerPc.Joined] at h) (fun _ h => h) fun _ => rfl
  | @push w wk ho hwk =>
    subst hwk
    have hpush : (s.setWorker w ((s.worker w).push maxQueueSize .owner .wakeup)).Working :=
      hw.setWorker (Worker.push_served (hw.served w)) (fun h => by simp [ho, OwnerPc.Going] at h)
        (fun h => by simp [ho, OwnerPc.Joined] at h) (fun _ h => Worker.mem_push_of_mem h)
        fun t => Worker.push_pushing_of_ne (by simp)
    refine hpush.setOwner (fun v hv => .inl ?_) fun v hv => .inl ?_
    all_goals
      simp only [PoolState.setWorker, ho]
      split at hv <;> exact hv
  | @joined w ho hpc =>
    refine hw.setOwner (fun v hv => .inl ?_) fun v hv => ?_
    · simp only [ho, OwnerPc.Going] at hv ⊢
      exact hv
    · simp only [ho, OwnerPc.Joined] at hv ⊢
      rcases Nat.lt_succ_iff_lt_or_eq.1 hv with hv | hv
      · exact .inl hv
      · exact .inr (Fin.ext hv ▸ hpc)
  | stopped hn ho =>
    refine hw.setOwner (fun v hv => hv.elim) fun v _ => .inl ?_
    simp only [ho, OwnerPc.Joined]
    exact Nat.lt_of_lt_of_le v.2 hn

theorem step_working {a : PoolLabel n τ φ} (hi : s.Inv initCallback) (hw : s.Working) (h : s.step maxQueueSize a = some s') :
    s'.Working := by
  cases a with
  | start =>
    simp only [step, Option.ite_none_right_eq_some, Option.some.injEq] at h
    obtain ⟨ho, rfl⟩ := h
    exact hw.setOwner (fun v hv => absurd hv (Nat.not_lt_zero _)) fun v hv => hv.elim
  | stop =>
    simp only [step, Option.ite_none_right_eq_some, Option.some.injEq] at h
    obtain ⟨ho, rfl⟩ := h
    exact hw.setOwner (fun v _ => .inl (by rw [ho]; trivial)) fun v hv => absurd hv (Nat.not_lt_zero _)
  | owner => exact ownerStep_working hi hw h
  | worker w =>
    obtain ⟨wk, hwk, rfl⟩ := Option.map_eq_some_iff.1 h
    obtain ⟨-, hp, hc⟩ := Worker.runInThread_quiet (hi.ok w) hwk
    refine hw.setWorker (Worker.runInThread_served (hw.served w) hwk)
      (fun hgo => Worker.runInThread_going hwk (hw.going w hgo).1) (fun hj => ?_) (fun x hx => hp ▸ hx) fun t => hc _
    simp [Worker.runInThread, hw.joined w hj] at hwk
  | run t f workerId pick =>
    simp only [step] at h
    split at h
    · cases h
    · rename_i ht
      obtain ⟨wk, hwk, rfl⟩ := Option.map_eq_some_iff.1 h
      obtain ⟨-, rfl⟩ := Worker.queue_push hwk
      refine hw.client_push (fun y hy => ?_) fun id e he => ?_
      · have := (hi.owned _ _ y hy).1.1
        simp [ht] at this
      · rcases Nat.lt_or_ge id s.calls.length with hlt | hge
        · rw [List.getElem?_append_left hlt] at he
          exact .inl (hw.called id e he)
        · have hid : id = s.calls.length := by
            have := (List.getElem?_eq_some_iff.1 he).1
            simp only [List.length_append, List.length_singleton] at this
            omega
          subst hid
          simp only [List.getElem?_concat_length, Option.some.injEq] at he
          subst he
          exact .inr ⟨rfl, rfl, rfl⟩
  | resume t =>
    obtain ⟨w, -, h⟩ := Option.bind_eq_some_iff.1 h
    obtain ⟨wk, hwk, rfl⟩ := Option.map_eq_some_iff.1 h
    obtain ⟨x, hx, rfl⟩ := Worker.queue_resume (hi.ok w) (by simp) hwk
    refine hw.client_push (fun y hy => ?_) fun id e he => .inl (hw.called id e he)
    simpa [pushing, hx, QueuePc.pushing, eq_comm] using hy
  | spurious w c =>
    obtain ⟨wk, hwk, rfl⟩ := Option.map_eq_some_iff.1 h
    obtain ⟨hpc, -, hp, hc⟩ := Worker.spurious_quiet hwk
    have hrun : wk.running = (s.worker w).running := by
      obtain ⟨q, -, rfl⟩ := Option.map_eq_some_iff.1 hwk
      rfl
    refine hw.setWorker (Worker.queue_served (hw.served w) hwk) (fun hgo => ?_) (fun hj => hpc ▸ hw.joined w hj)
      (fun x hx => hp ▸ hx) fun t => hc _
    rw [hrun, hpc]
    exact hw.going w hgo

/-- A worker that is to go on and has no step sleeps before its empty queue. -/
theorem pop_of_rest (hi : s.Inv initCallback) (hw : s.Working) (hgo : s.owner.Going w)
    (hrest : s.step maxQueueSize (.worker w) = none) : (s.worker w).pc = .pop ∧ (s.worker w).tasks.queue = [] := by
  obtain ⟨-, hnew, hfin⟩ := hw.going w hgo
  by_contra hpop
  have hsome : ((s.worker w).runInThread maxQueueSize).isSome :=
    Worker.runInThread_isSome (hi.ok w) (hw.served w) hnew hfin fun hpc hq => hpop ⟨hpc, hq⟩
  simp only [step, Option.map_eq_none_iff] at hrest
  simp [hrest] at hsome

end PoolState

namespace ThreadPool

variable {s t : PoolState n τ φ} {as : List (PoolLabel n τ φ)}

theorem run_working (hr : (ThreadPool n τ φ initCallback maxQueueSize).run (.create initCallback) as = some s) :
    s.Inv initCallback ∧ s.Working :=
  Lts.System.run_inv_of (I := fun s : PoolState n τ φ => s.Inv initCallback ∧ s.Working) (Q := fun _ => True)
    (fun _ _ _ _ hi h => ⟨PoolState.step_inv hi.1 h, PoolState.step_working hi.1 hi.2 h⟩) (fun _ _ => trivial) hr
    ⟨PoolState.create_inv, PoolState.create_working⟩

/-- A pool takes boundedly many steps for each section of `run` and each spurious
wakeup. When its workers have no step left, a started pool has executed every task
that was submitted, save those whose caller is still in `push`. -/
theorem works_off (hr : (ThreadPool n τ φ initCallback maxQueueSize).run (.create initCallback) as = some s) :
    as.length ≤ 18 * n + 4 + 6 * as.countP PoolLabel.fromOutside ∧
      (s.owner = .started → (∀ w, (ThreadPool n τ φ initCallback maxQueueSize).step s (.worker w) = none) →
        ∀ id e, s.calls[id]? = some e → e.task.isSome →
          .submitted id e.task ∈ (s.worker e.worker).completed ∨
            s.pushing e.worker (.client e.caller) = some (.submitted id e.task)) := by
  have hvariant : (ThreadPool n τ φ initCallback maxQueueSize).Variant (fun _ => True)
      (PoolState.Inv initCallback) 6 PoolLabel.fromOutside PoolState.work :=
    ⟨fun _ _ _ _ hi h => PoolState.step_inv hi h, fun _ _ _ _ hi h => PoolState.step_work hi h⟩
  refine ⟨?_, fun ho hrest id e he htask => ?_⟩
  · have hlen := hvariant.run_length (fun _ _ => trivial) PoolState.create_inv hr
    rw [PoolState.create_work] at hlen
    omega
  · obtain ⟨hi, hw⟩ := run_working hr
    obtain ⟨hpc, hq⟩ := PoolState.pop_of_rest hi hw (w := e.worker) (by rw [ho]; trivial) (hrest e.worker)
    have hdone := (hi.ok e.worker).completed_eq (.inl hpc)
    rw [hq, List.filter_nil, List.append_nil] at hdone
    refine (hw.called id e he).imp_left fun hmem => ?_
    rw [← hdone]
    exact List.mem_filter.2 ⟨hmem, htask⟩

/-- Thread 7 submits a task, and the worker runs until it sleeps. -/
theorem works_off_one : ∃ s, (ThreadPool 1 Nat Nat (some 0) 2).run (.create (some 0))
      ([.start, .owner, .worker 0, .owner, .owner, .run 7 (some 3) (-1) 0] ++ List.replicate 10 (.worker 0)) = some s ∧
    ∀ id e, s.calls[id]? = some e → e.task.isSome →
      .submitted id e.task ∈ (s.worker e.worker).completed ∨
        s.pushing e.worker (.client e.caller) = some (.submitted id e.task) := by
  have hend : ((ThreadPool 1 Nat Nat (some 0) 2).run (.create (some 0))
      ([.start, .owner, .worker 0, .owner, .owner, .run 7 (some 3) (-1) 0] ++ List.replicate 10 (.worker 0))).map
      (fun s => (s.owner, (s.step (queueCapacity 2) (.worker 0)).isNone)) = some (.started, true) := by decide +kernel
  obtain ⟨s, hr, hs⟩ := Option.map_eq_some_iff.1 hend
  obtain ⟨ho, hnone⟩ := Prod.mk.inj hs
  refine ⟨s, hr, (works_off hr).2 ho fun w => ?_⟩
  obtain rfl := Subsingleton.elim 0 w
  exact Option.isNone_iff_eq_none.1 hnone

/-- In a run in which each wake-up task finds room, a pool that is being stopped
comes to rest stopped: its workers' threads are finished, and each worker has
executed the tasks pushed to it but for those still in its queue. -/
theorem stop_finishes (h0 : (ThreadPool n τ φ initCallback maxQueueSize).init s)
    (hg : (ThreadPool n τ φ initCallback maxQueueSize).Guarded
      (PoolState.WakeupFits (queueCapacity maxQueueSize)) s as)
    (hr : (ThreadPool n τ φ initCallback maxQueueSize).run s as = some t) (hs : t.Stopping ∨ t.owner = .stopped)
    (hrest : ∀ a, a.fromOutside = false → (ThreadPool n τ φ initCallback maxQueueSize).step t a = none) :
    t.owner = .stopped ∧ ∀ w, (t.worker w).pc = .finished ∧
      (t.worker w).tasks.pushed.filter Task.callable =
        (t.worker w).completed ++ (t.worker w).tasks.queue.filter Task.callable := by
  obtain ⟨-, rfl⟩ := h0
  have hinv := (Lts.System.Guarded.always (I := fun s : PoolState n τ φ => s.Inv initCallback ∧ s.StopInv)
    (fun s a s' hi hg h => ⟨PoolState.step_inv hi.1 h, PoolState.step_stopInv hi.1 hi.2 hg h⟩)
    ⟨PoolState.create_inv, PoolState.create_stopInv⟩ hg).last hr
  obtain ⟨hi, hw⟩ := run_working hr
  have hstopped : t.owner = .stopped := by
    refine hs.resolve_left fun hstopping => ?_
    exact PoolState.not_stuck hinv.1 hinv.2
      ⟨hstopping, hrest .owner rfl, fun w => hrest (.worker w) rfl⟩
  refine ⟨hstopped, fun w => ?_⟩
  have hpc := hw.joined w (by rw [hstopped]; trivial)
  exact ⟨hpc, (hi.ok w).completed_eq (.inr hpc)⟩

/-- One worker with a queue for two tasks, stopped before it has taken the initial callback. -/
theorem stop_finishes_two : ∃ t, (ThreadPool 1 Nat Nat (some 0) 2).run (.create (some 0))
      [.start, .owner, .worker 0, .owner, .owner, .stop, .owner, .owner, .worker 0, .owner, .owner] = some t ∧
    t.owner = .stopped ∧ ∀ w, (t.worker w).pc = .finished ∧
      (t.worker w).tasks.pushed.filter Task.callable =
        (t.worker w).completed ++ (t.worker w).tasks.queue.filter Task.callable := by
  have hfits : ∀ k < 11, (((ThreadPool 1 Nat Nat (some 0) 2).run (.create (some 0))
      ([.start, .owner, .worker 0, .owner, .owner, .stop, .owner, .owner, .worker 0, .owner, .owner].take k)).all
      fun u => decide (u.owner = .stopPush 0 → (u.worker 0).tasks.queue.length < queueCapacity 2)) = true := by
    decide +kernel
  have hend : ((ThreadPool 1 Nat Nat (some 0) 2).run (.create (some 0))
      [.start, .owner, .worker 0, .owner, .owner, .stop, .owner, .owner, .worker 0, .owner, .owner]).map
      (fun t => (t.owner, (t.step (queueCapacity 2) (.worker 0)).isNone)) = some (.stopped, true) := by decide +kernel
  obtain ⟨t, hr, ht⟩ := Option.map_eq_some_iff.1 hend
  obtain ⟨ho, hnone⟩ := Prod.mk.inj ht
  refine ⟨t, hr, stop_finishes ⟨by decide, rfl⟩ (Lts.System.guarded_of_take fun k a ha u hu _ w ho => ?_) hr (.inr ho)
    fun a ha => ?_⟩
  · have hfit := hfits k (List.getElem?_eq_some_iff.1 ha).1
    obtain rfl := Subsingleton.elim 0 w
    rw [hu, Option.all_some, decide_eq_true_eq] at hfit
    exact hfit ho
  · cases a with
    | start | stop | owner => simp [ThreadPool, PoolState.step, PoolState.ownerStep, ho]
    | worker w =>
      obtain rfl := Subsingleton.elim 0 w
      exact Option.isNone_iff_eq_none.1 hnone
    | _ => cases ha

end ThreadPool

end Ycnt

import Ycnt.Base.ThreadPool
/-!
# Load balancing

A pool under `LB0` is a thread pool in which `run` picks the worker itself. To the
states of the pool come the average run times that `runInThread` keeps, in
milliseconds. `Timestamp::now()` in microseconds is part of a step's label. The average
is computed in `double`s: `average last start end_` stands for what is stored.

`run` reads the workloads one by one; they are the ones of the step that submits.
-/

namespace Ycnt

open Function Schedule

/-- The conversion to `int64_t`. -/
def toInt64 (v : Int) : Int := if v % 2 ^ 64 < 2 ^ 63 then v % 2 ^ 64 else v % 2 ^ 64 - 2 ^ 64

/-- `avgTaskRuntime_.load() * tasks_.size()`, a product of `size_t`s. -/
def workload (avgTaskRuntime : Int) (size : Nat) : Int := toInt64 (toSize avgTaskRuntime * size)

structure LoadState (n : Nat) (τ φ : Type*) where
  pool : PoolState n τ φ
  /-- The local variable of `runInThread`. -/
  start : Fin n → Int
  avgTaskRuntime : Fin n → Int

namespace LoadState

variable {n : Nat} {τ φ : Type*} (s : LoadState n τ φ)

/-- `tasks_.size()` -/
def size (w : Fin n) : Nat := (s.pool.worker w).tasks.queue.length

def workload (w : Fin n) : Int := Ycnt.workload (s.avgTaskRuntime w) (s.size w)

/-- The index that `LB0` uses. -/
def picked : Nat := toSize (leastLoaded n fun i => if h : i < n then s.workload ⟨i, h⟩ else 0)

/-- What `runInThread` does about the average in a step of worker `w`. -/
def runInThread (average : Int → Int → Int → Int) (w : Fin n) (now : Int) : LoadState n τ φ :=
  match (s.pool.worker w).pc with
  | .got task => if task.callable then { s with start := update s.start w (now.tdiv 1000) } else s
  | .executing _ =>
    let avg := average (s.avgTaskRuntime w) (s.start w) (now.tdiv 1000)
    { s with avgTaskRuntime := update s.avgTaskRuntime w avg }
  | _ => s

def step [DecidableEq τ] (average : Int → Int → Int → Int) (maxQueueSize : Nat) (a : PoolLabel n τ φ × Int) :
    Option (LoadState n τ φ) :=
  let timed := match a.1 with | .worker w => s.runInThread average w a.2 | _ => s
  match a.1 with
  | .run _ _ workerId pick =>
    if workerId < 0 → (pick : Nat) = s.picked then
      (s.pool.step maxQueueSize a.1).map fun pool => { timed with pool := pool }
    else none
  | _ => (s.pool.step maxQueueSize a.1).map fun pool => { timed with pool := pool }

/-- What `newThreadPool` leaves. -/
def create (initCallback : Option φ) : LoadState n τ φ := ⟨.create initCallback, fun _ => 0, fun _ => 0⟩

end LoadState

/-- A pool of `n` workers made with `LB0`. -/
def LoadBalance (n : Nat) (τ φ : Type*) [DecidableEq τ] (average : Int → Int → Int → Int) (initCallback : Option φ)
    (maxQueueSize : Nat) : Lts.System (LoadState n τ φ) (PoolLabel n τ φ × Int) where
  init s := 0 < queueCapacity maxQueueSize ∧ s = .create initCallback
  step s a := s.step average (queueCapacity maxQueueSize) a

/-! ## Workloads -/

theorem toInt64_le (v : Int) : toInt64 v ≤ INT64_MAX := by
  unfold toInt64 INT64_MAX
  split <;> omega

/-- A product that does not overflow. -/
theorem workload_eq {avg : Int} {size : Nat} (h0 : 0 ≤ avg) (h : avg * size < 2 ^ 63) : workload avg size = avg * size := by
  have hmod : (toSize avg * size : Int) % 2 ^ 64 = avg * size := by
    have hsize : (toSize avg : Int) = avg % 2 ^ 64 := by
      unfold toSize
      omega
    rw [hsize, Int.mul_emod, Int.emod_emod, ← Int.mul_emod]
    exact Int.emod_eq_of_lt (Int.mul_nonneg h0 (Int.natCast_nonneg _)) (by omega)
  unfold workload toInt64
  rw [hmod, if_pos h]

/-- The choice of `LB0` is the first of the least workloads, whatever they are. -/
theorem leastLoaded_first {n : Nat} {load : Nat → Int} (hn : 0 < n) (hload : ∀ i < n, load i ≤ INT64_MAX) :
    ∃ i : Nat, leastLoaded n load = toInt i ∧ i < n ∧ (∀ j < n, load i ≤ load j) ∧ ∀ j < i, load i < load j := by
  rcases leastLoaded_loop load n with ⟨hr, hall⟩ | ⟨i, hr, hi, -, hle, hlt⟩
  · refine ⟨0, ?_, hn, fun j hj => (hload 0 hn).trans (hall j hj), fun j hj => absurd hj (Nat.not_lt_zero j)⟩
    unfold leastLoaded
    rw [hr]
    rfl
  · refine ⟨i, ?_, hi, hle, hlt⟩
    unfold leastLoaded
    rw [hr]

namespace LoadState

variable {n : Nat} {τ φ : Type*} [DecidableEq τ] {average : Int → Int → Int → Int} {initCallback : Option φ}
  {maxQueueSize : Nat} {s s' : LoadState n τ φ}

omit [DecidableEq τ] in
/-- Worker numbers are `int`s in the loop. -/
theorem picked_first (s : LoadState n τ φ) (hn : 0 < n) (hint : n ≤ 2 ^ 31) :
    ∃ w : Fin n, s.picked = w ∧ (∀ v, s.workload w ≤ s.workload v) ∧ ∀ v < w, s.workload w < s.workload v := by
  have hload : ∀ i < n, (if h : i < n then s.workload ⟨i, h⟩ else 0) ≤ INT64_MAX := by
    intro i hi
    rw [dif_pos hi]
    unfold workload Ycnt.workload
    exact toInt64_le _
  obtain ⟨i, hi, hlt, hle, hfirst⟩ := leastLoaded_first hn hload
  refine ⟨⟨i, hlt⟩, ?_, fun v => ?_, fun v hv => ?_⟩
  · have hfit : toInt i = i := by
      unfold toInt
      split <;> omega
    have := toSize_of_nonneg (v := i) (by omega) (by omega)
    rw [picked, hi, hfit]
    exact_mod_cast this
  · simpa [hlt] using hle v v.2
  · have hv' : (v : Nat) < i := hv
    simpa [hlt] using hfirst v hv'

/-- A step of the pool, with the worker that `LB0` picks in a `run` that leaves it
the choice. -/
theorem step_pool {a : PoolLabel n τ φ × Int} (h : s.step average maxQueueSize a = some s') :
    s.pool.step maxQueueSize a.1 = some s'.pool ∧
      ∀ t f workerId pick, a.1 = .run t f workerId pick → workerId < 0 → (pick : Nat) = s.picked := by
  obtain ⟨a, now⟩ := a
  cases a with
  | run t f workerId pick =>
    simp only [step, Option.ite_none_right_eq_some, Option.map_eq_some_iff] at h
    obtain ⟨hpick, p, hp, rfl⟩ := h
    refine ⟨hp, fun _ _ _ _ heq hid => ?_⟩
    cases heq
    exact hpick hid
  | start | stop | owner | worker w | resume t | spurious w c =>
    simp only [step, Option.map_eq_some_iff] at h
    obtain ⟨p, hp, rfl⟩ := h
    exact ⟨hp, fun _ _ _ _ heq => by cases heq⟩

/-- The pool under a load balance is a thread pool. -/
theorem reachable_pool (h : (LoadBalance n τ φ average initCallback maxQueueSize).Reachable s) :
    (ThreadPool n τ φ initCallback maxQueueSize).Reachable s.pool := by
  induction h with
  | init h => exact .init ⟨h.1, by rw [h.2]; rfl⟩
  | step _ h ih => exact ih.step (step_pool h).1

/-- A `run` that leaves the choice to `LB0` goes to the worker picked, and nowhere else. -/
theorem run_picked {t : τ} {f : Option φ} {workerId now : Int} {pick w : Fin n} (hid : workerId < 0) (hw : s.picked = w)
    (h : s.step average maxQueueSize (.run t f workerId pick, now) = some s') :
    s'.pool.calls = s.pool.calls ++ [⟨t, f, workerId, w⟩] ∧ ∀ v ≠ w, s'.pool.worker v = s.pool.worker v := by
  obtain ⟨hp, hpick⟩ := step_pool h
  obtain rfl : pick = w := Fin.ext ((hpick t f workerId pick rfl hid).trans hw)
  have hhome : home workerId pick = pick := if_neg (Int.not_le.2 hid)
  simp only [PoolState.step, hhome] at hp
  split at hp
  · cases hp
  · obtain ⟨wk, -, hp⟩ := Option.map_eq_some_iff.1 hp
    rw [← hp]
    exact ⟨rfl, fun v hv => PoolState.setWorker_of_ne wk hv⟩

end LoadState

namespace LoadBalance

variable {n : Nat} {τ φ : Type*} [DecidableEq τ]

/-- `LB0` sends a task to the first worker with the least workload. A worker with tasks in
its queue is picked before an empty queue only if its average is 0: then its queue
does not count. -/
theorem lb0_least (average : Int → Int → Int → Int) (maxQueueSize : Nat) (s : LoadState n τ φ) (hn : 0 < n)
    (hint : n ≤ 2 ^ 31) (havg : ∀ w, 0 ≤ s.avgTaskRuntime w)
    (hprod : ∀ w, s.avgTaskRuntime w * s.size w < 2 ^ 63) :
    ∃ w : Fin n, s.picked = w ∧
      (∀ v, s.workload v = s.avgTaskRuntime v * s.size v) ∧ (∀ v, s.workload w ≤ s.workload v) ∧
      (∀ v < w, s.workload w < s.workload v) ∧
      (0 < s.size w → (∃ v, s.size v = 0) → s.avgTaskRuntime w = 0) ∧
      ∀ t f workerId pick now s', workerId < 0 →
        s.step average maxQueueSize (.run t f workerId pick, now) = some s' →
        s'.pool.calls = s.pool.calls ++ [⟨t, f, workerId, w⟩] ∧ ∀ v ≠ w, s'.pool.worker v = s.pool.worker v := by
  obtain ⟨w, hw, hle, hlt⟩ := s.picked_first hn hint
  have hload : ∀ v, s.workload v = s.avgTaskRuntime v * s.size v := fun v => workload_eq (havg v) (hprod v)
  refine ⟨w, hw, hload, hle, hlt, fun hpos ⟨v, hv⟩ => ?_, fun t f workerId pick now s' hid h => ?_⟩
  swap
  · exact LoadState.run_picked hid hw h
  have hzero : s.avgTaskRuntime w * s.size w ≤ 0 := by
    calc s.avgTaskRuntime w * s.size w
        = s.workload w := (hload w).symm
      _ ≤ s.workload v := hle v
      _ = 0 := by simp [hload v, hv]
  have hsize : (0 : Int) < s.size w := by exact_mod_cast hpos
  rcases (havg w).eq_or_lt with h0 | h0
  · exact h0.symm
  · exact absurd (Int.mul_pos h0 hsize) (Int.not_lt.2 hzero)

/-- The average in exact arithmetic. -/
def exactAverage (last start end_ : Int) : Int := (9 * last + 10 * (end_ - start)).tdiv 19

/-- Two workers have done their initial callbacks in less than a millisecond. The
first of two tasks waits for worker 0, and the second joins it there. -/
theorem lb0_joins_queue : ∃ s s' : LoadState 2 Nat Nat,
    (LoadBalance 2 Nat Nat exactAverage (some 0) 4).Reachable s ∧
      (∀ w, 0 ≤ s.avgTaskRuntime w ∧ s.avgTaskRuntime w * s.size w < 2 ^ 63) ∧ s.size 0 = 1 ∧ s.size 1 = 0 ∧
      (LoadBalance 2 Nat Nat exactAverage (some 0) 4).step s (.run 5 (some 8) (-1) 0, 1000900) = some s' ∧
      s'.pool.calls = s.pool.calls ++ [⟨5, some 8, -1, 0⟩] ∧ s'.size 0 = 2 := by
  have hrun : (LoadBalance 2 Nat Nat exactAverage (some 0) 4).run (.create (some 0))
      ([.start, .owner, .worker 0, .owner, .owner, .worker 1, .owner, .owner, .worker 0, .worker 0, .worker 0, .worker 0,
        .worker 1, .worker 1, .worker 1, .worker 1, .run 5 (some 7) (-1) 0].map (·, 1000500)) = some _ := rfl
  have h0 : (LoadBalance 2 Nat Nat exactAverage (some 0) 4).init (.create (some 0)) := ⟨by decide, rfl⟩
  exact ⟨_, _, (Lts.System.Reachable.init h0).run hrun, by decide, by decide, by decide, rfl, rfl, by decide⟩

/-- A task each, of 5 ms on average and of 3 ms. -/
theorem lb0_least_two : ∃ s : LoadState 2 Nat Nat, (s.avgTaskRuntime 0 = 5 ∧ s.avgTaskRuntime 1 = 3) ∧ s.picked = 1 ∧
    ∀ v, s.workload 1 ≤ s.workload v := by
  let s : LoadState 2 Nat Nat := { LoadState.create (some 0) with avgTaskRuntime := fun w => if w = 0 then 5 else 3 }
  have hpicked : s.picked = 1 := by decide
  obtain ⟨w, hw, -, hle, -⟩ := lb0_least exactAverage 4 s (by decide) (by decide) (by decide) (by decide)
  obtain rfl : w = 1 := Fin.ext (hw.symm.trans hpicked)
  exact ⟨s, ⟨rfl, rfl⟩, hpicked, hle⟩

end LoadBalance

end Ycnt

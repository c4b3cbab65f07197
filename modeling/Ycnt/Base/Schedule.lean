import Mathlib.Data.List.Infix
import Ycnt.Lib.Lts
import Ycnt.Lib.Rotation
/-!
# Which worker a task goes to

`ThreadPool::run` (`ThreadPool.cpp`) for the pools of one process. The static
`idx` is shared by all of them; a step is one call of `run`, on any pool. What
the call reads from outside (the clock, the workers' `workload()`) is part of
its label. Workers are counted by `size_t`, `idx` is an `int`.
-/

namespace Ycnt.Schedule

open Rotation

/-- `static_cast<int>` of an integer, `static_cast<size_t>` of one. -/
def toInt (v : Int) : Int := if v % 2 ^ 32 < 2 ^ 31 then v % 2 ^ 32 else v % 2 ^ 32 - 2 ^ 32

def toSize (v : Int) : Nat := (v % 2 ^ 64).toNat

def INT64_MAX : Int := 2 ^ 63 - 1

inductive SchedulePolicy where
  | RAN
  | RR
  | LB0
  deriving DecidableEq, Repr

/-- A pool with workers; a `std::vector` of pointers holds fewer than `2^60`. -/
structure Pool where
  policy : SchedulePolicy
  size : Nat
  nonempty : 0 < size
  maxSize : size < 2 ^ 60

/-- A call of `run` on pool `pool`. `now` is `Timestamp::now()` in microseconds
and `load i` the `workload()` of worker `i`, should the policy ask for them. -/
structure Call (ι : Type*) where
  pool : ι
  workerId : Int
  now : Int
  load : Nat → Int

/-- The loop of `LB0`: the first of the workers with the least load. -/
def leastLoaded (size : Nat) (load : Nat → Int) : Int :=
  ((List.range size).foldl
    (fun (minLoad, idx) i => if load i < minLoad then (load i, toInt i) else (minLoad, idx))
    (INT64_MAX, 0)).2

/-- The value `idx` gets from a call without a worker id. -/
def nextIdx {ι : Type*} (idx : Int) (p : Pool) (c : Call ι) : Int :=
  match p.policy with
  | .RAN => toInt (toSize c.now % p.size)
  | .RR => toInt (idx + 1)
  | .LB0 => leastLoaded p.size c.load

/-- `idx`, and the calls made so far with the index each used in `workers_[..]`. -/
structure State (ι : Type*) where
  idx : Int
  calls : List (Call ι × Nat)

/-- `run` on a pool with workers. -/
def run {ι : Type*} (pools : ι → Pool) (s : State ι) (c : Call ι) : State ι :=
  if 0 ≤ c.workerId then
    { s with calls := s.calls ++ [(c, toSize c.workerId % (pools c.pool).size)] }
  else
    let idx := nextIdx s.idx (pools c.pool) c
    { idx := idx, calls := s.calls ++ [(c, toSize idx)] }

variable {ι : Type*}

/-- The process, `idx` starting at 0; every call of `run` is possible at any time. -/
def ThreadPools (pools : ι → Pool) : Lts.System (State ι) (Call ι) where
  init s := s = ⟨0, []⟩
  step s c := some (run pools s c)

/-! ## Worker numbers -/

/-- Worker `i` is the first one with the least load. -/
def FirstLeast (size : Nat) (load : Nat → Int) (i : Nat) : Prop :=
  i < size ∧ load i < INT64_MAX ∧ (∀ j < size, load i ≤ load j) ∧ ∀ j < i, load i < load j

/-- A worker number that is not negative as an `int`. -/
def FitsInt (i : Nat) : Prop := i % 2 ^ 32 < 2 ^ 31

theorem toSize_of_nonneg {v : Int} (h0 : 0 ≤ v) (h1 : v < 2 ^ 31) : (toSize v : Int) = v := by
  unfold toSize; omega

theorem toSize_lt_iff {v : Int} {n : Nat} (hv : -2 ^ 31 ≤ v ∧ v < 2 ^ 31) (hn : n < 2 ^ 60) :
    toSize v < n ↔ 0 ≤ v ∧ v < n := by
  unfold toSize; omega

theorem toInt_bounds (v : Int) : -2 ^ 31 ≤ toInt v ∧ toInt v < 2 ^ 31 := by
  unfold toInt; split <;> omega

/-- A worker number still names a worker as an `int` exactly if it fits. -/
theorem toSize_toInt_lt_iff {i n : Nat} (hi : i < n) (hn : n < 2 ^ 60) : toSize (toInt i) < n ↔ FitsInt i := by
  rw [toSize_lt_iff (toInt_bounds _) hn]
  unfold FitsInt toInt
  split <;> omega

/-- The invariant of `leastLoaded`'s loop after `k` workers. -/
theorem leastLoaded_loop (load : Nat → Int) (k : Nat) :
    let r := (List.range k).foldl
      (fun (minLoad, idx) i => if load i < minLoad then (load i, toInt i) else (minLoad, idx)) (INT64_MAX, 0)
    (r = (INT64_MAX, 0) ∧ ∀ j < k, INT64_MAX ≤ load j) ∨ ∃ i, r = (load i, toInt i) ∧ FirstLeast k load i := by
  induction k with
  | zero => simp
  | succ k ih =>
    simp only [List.range_succ, List.foldl_append, List.foldl_cons, List.foldl_nil]
    rcases ih with ⟨hr, hall⟩ | ⟨i, hr, hi, hmax, hle, hlt⟩
    all_goals
      rw [hr]
      dsimp only
      split
      all_goals rename_i h
    · have hk : ∀ j < k, load k < load j := fun j hj => h.trans_le (hall j hj)
      exact .inr ⟨k, rfl, by omega, h, Nat.forall_lt_succ_right.2 ⟨fun j hj => (hk j hj).le, le_rfl⟩, hk⟩
    · exact .inl ⟨rfl, Nat.forall_lt_succ_right.2 ⟨hall, not_lt.1 h⟩⟩
    · have hk : ∀ j < k, load k < load j := fun j hj => h.trans_le (hle j hj)
      exact .inr ⟨k, rfl, by omega, h.trans hmax, Nat.forall_lt_succ_right.2 ⟨fun j hj => (hk j hj).le, le_rfl⟩, hk⟩
    · exact .inr ⟨i, rfl, by omega, hmax, Nat.forall_lt_succ_right.2 ⟨hle, not_lt.1 h⟩, hlt⟩

theorem leastLoaded_cases (size : Nat) (load : Nat → Int) :
    (leastLoaded size load = 0 ∧ ∀ i, ¬ FirstLeast size load i) ∨
      ∃ i : Nat, leastLoaded size load = toInt i ∧ FirstLeast size load i := by
  rcases leastLoaded_loop load size with ⟨hr, hall⟩ | ⟨i, hr, hi⟩
  · refine .inl ⟨by unfold leastLoaded; rw [hr], fun i hi => ?_⟩
    have := hall i hi.1
    have := hi.2.1
    omega
  · exact .inr ⟨i, by unfold leastLoaded; rw [hr], hi⟩

theorem FirstLeast.unique {size : Nat} {load : Nat → Int} {i j : Nat} (hi : FirstLeast size load i)
    (hj : FirstLeast size load j) : i = j := by
  obtain ⟨hi, -, hile, hilt⟩ := hi
  obtain ⟨hj, -, hjle, hjlt⟩ := hj
  rcases Nat.lt_trichotomy i j with h | h | h
  · exact absurd (hjlt i h) (not_lt.2 (hile j hj))
  · exact h
  · exact absurd (hilt j h) (not_lt.2 (hjle i hi))

theorem leastLoaded_bounds (size : Nat) (load : Nat → Int) :
    -2 ^ 31 ≤ leastLoaded size load ∧ leastLoaded size load < 2 ^ 31 := by
  rcases leastLoaded_cases size load with ⟨h, -⟩ | ⟨i, h, -⟩
  · rw [h]; omega
  · rw [h]; exact toInt_bounds _

theorem nextIdx_bounds (idx : Int) (p : Pool) (c : Call ι) :
    -2 ^ 31 ≤ nextIdx idx p c ∧ nextIdx idx p c < 2 ^ 31 := by
  unfold nextIdx
  split
  · exact toInt_bounds _
  · exact toInt_bounds _
  · exact leastLoaded_bounds _ _

/-! ## Range -/

variable {pools : ι → Pool}

/-- Every index was one of its pool's workers. -/
def InRange (pools : ι → Pool) (s : State ι) : Prop := ∀ e ∈ s.calls, e.2 < (pools e.1.pool).size

theorem inRange_run (s : State ι) (c : Call ι) :
    InRange pools (run pools s c) ↔
      InRange pools s ∧ (c.workerId < 0 → toSize (nextIdx s.idx (pools c.pool) c) < (pools c.pool).size) := by
  unfold run InRange
  split
  · rename_i h
    have := Nat.mod_lt (toSize c.workerId) (pools c.pool).nonempty
    rw [List.forall_mem_append, List.forall_mem_singleton]
    simp [this, Int.not_lt.2 h]
  · rename_i h
    rw [List.forall_mem_append, List.forall_mem_singleton]
    simp [Int.not_le.1 h]

/-- `idx` stays an `int`, and it is negative only after an index out of range. -/
def IdxOk (pools : ι → Pool) (s : State ι) : Prop :=
  (-2 ^ 31 ≤ s.idx ∧ s.idx < 2 ^ 31) ∧ (InRange pools s → 0 ≤ s.idx)

theorem idxOk_run {s : State ι} (h : IdxOk pools s) (c : Call ι) : IdxOk pools (run pools s c) := by
  by_cases hw : 0 ≤ c.workerId
  · have hidx : (run pools s c).idx = s.idx := by simp [run, hw]
    refine ⟨hidx ▸ h.1, fun hr => hidx ▸ h.2 ((inRange_run s c).1 hr).1⟩
  · have hidx : (run pools s c).idx = nextIdx s.idx (pools c.pool) c := by simp [run, hw]
    have hb := nextIdx_bounds s.idx (pools c.pool) c
    refine ⟨hidx ▸ hb, fun hr => hidx ▸ ?_⟩
    exact ((toSize_lt_iff hb (pools c.pool).maxSize).1 (((inRange_run s c).1 hr).2 (Int.not_le.1 hw))).1

/-! ## Rotation -/

variable [DecidableEq ι] (pools : ι → Pool)

/-- The indices used by the calls on `p` that left the choice to the policy. -/
def chosen (s : State ι) (p : ι) : List Nat :=
  (s.calls.filter fun e => e.1.pool = p ∧ e.1.workerId < 0).map (·.2)

/-- Under `RR`, consecutive choices go to consecutive workers, and each `k`
rounds of them give every worker `k` tasks. -/
def RoundRobin (s : State ι) : Prop :=
  ∀ p, (pools p).policy = .RR → Rotates (pools p).size (chosen s p) ∧
    ∀ block, block <:+: chosen s p → ∀ k, block.length = k * (pools p).size →
      ∀ w < (pools p).size, block.count w = k

def Dispatches (s : State ι) : Prop := InRange pools s ∧ RoundRobin pools s

/-- When a call is dispatched as promised: `RR` finds `idx + 1` still a worker of
this pool, and `idx` still where the pool's last choice left it. The other
policies only need a worker number that survives the conversion to `int`. -/
def InTurn (s : State ι) (c : Call ι) : Prop :=
  c.workerId < 0 →
    match (pools c.pool).policy with
    | .RAN => FitsInt (toSize c.now % (pools c.pool).size)
    | .RR => s.idx + 1 < (pools c.pool).size ∧ s.idx + 1 < 2 ^ 31 ∧
        ∀ i ∈ (chosen s c.pool).getLast?, (i : Int) = s.idx
    | .LB0 => ∀ i, FirstLeast (pools c.pool).size c.load i → FitsInt i

variable {pools}

theorem chosen_run (s : State ι) (c : Call ι) (p : ι) :
    chosen (run pools s c) p =
      if c.pool = p ∧ c.workerId < 0 then chosen s p ++ [toSize (nextIdx s.idx (pools p) c)] else chosen s p := by
  unfold run chosen
  by_cases hw : 0 ≤ c.workerId
  · simp [hw]
  · by_cases hp : c.pool = p
    · subst hp; simp [hw, Int.not_le.1 hw]
    · simp [hw, hp]

/-- The successor of `idx` is the next worker in turn exactly if it is a worker
and `idx` is where the last choice left it. -/
theorem turn_iff {n : Nat} {l : List Nat} {idx : Int} (hn : n < 2 ^ 60) (h0 : 0 ≤ idx) (h1 : idx < 2 ^ 31)
    (hl : ∀ i ∈ l, i < n) :
    (toSize (toInt (idx + 1)) < n ∧ ∀ i ∈ l.getLast?, toSize (toInt (idx + 1)) = (i + 1) % n) ↔
      idx + 1 < n ∧ idx + 1 < 2 ^ 31 ∧ ∀ i ∈ l.getLast?, (i : Int) = idx := by
  have hlt : toSize (toInt (idx + 1)) < n ↔ idx + 1 < n ∧ idx + 1 < 2 ^ 31 := by
    rw [toSize_lt_iff (toInt_bounds _) hn]
    unfold toInt
    split <;> omega
  rw [hlt, and_assoc]
  refine and_congr_right fun hlt => and_congr_right fun h31 => forall₂_congr fun i hi => ?_
  have hi' : i < n := hl i (List.mem_of_getLast? hi)
  have hval : (toSize (toInt (idx + 1)) : Int) = idx + 1 := by
    rw [show toInt (idx + 1) = idx + 1 by unfold toInt; split <;> omega]
    exact toSize_of_nonneg (by omega) h31
  rcases Nat.lt_or_ge (i + 1) n with h | h
  · rw [Nat.mod_eq_of_lt h]; omega
  · rw [show i + 1 = n by omega, Nat.mod_self]; omega

theorem chosen_lt {s : State ι} (h : InRange pools s) {p : ι} : ∀ i ∈ chosen s p, i < (pools p).size := by
  intro i hi
  simp only [chosen, List.mem_map, List.mem_filter, decide_eq_true_eq] at hi
  obtain ⟨e, ⟨he, hp, -⟩, rfl⟩ := hi
  exact hp ▸ h e he

/-- Rotation alone makes the blocks even. -/
theorem roundRobin_iff {s : State ι} (h : InRange pools s) :
    RoundRobin pools s ↔ ∀ p, (pools p).policy = .RR → Rotates (pools p).size (chosen s p) := by
  refine ⟨fun hr p hp => (hr p hp).1, fun hr p hp => ⟨hr p hp, fun block hb k hk w hw => ?_⟩⟩
  exact count_turns (fun i hi => chosen_lt h i (hb.subset hi)) ((hr p hp).block hb) hk hw

theorem dispatches_run {s : State ι} (hi : IdxOk pools s) (hd : Dispatches pools s) (c : Call ι) :
    Dispatches pools (run pools s c) ↔ InTurn pools s c := by
  have h0 := hi.2 hd.1
  have hrr := (roundRobin_iff hd.1).1 hd.2
  unfold Dispatches
  rw [and_congr_right fun h => roundRobin_iff h, inRange_run, and_iff_right hd.1]
  by_cases hw : c.workerId < 0
  · -- The rotation of every pool but the called one is as before.
    have hrot : (∀ p, (pools p).policy = .RR → Rotates (pools p).size (chosen (run pools s c) p)) ↔
        ((pools c.pool).policy = .RR → ∀ i ∈ (chosen s c.pool).getLast?,
          toSize (nextIdx s.idx (pools c.pool) c) = (i + 1) % (pools c.pool).size) := by
      constructor
      · intro h hp
        have := h c.pool hp
        rw [chosen_run, if_pos ⟨rfl, hw⟩, rotates_append_singleton] at this
        exact this.2
      · intro h p hp
        rw [chosen_run]
        split
        · rename_i hc
          obtain ⟨rfl, -⟩ := hc
          exact rotates_append_singleton.2 ⟨hrr _ hp, h hp⟩
        · exact hrr p hp
    rw [hrot]
    simp only [InTurn, hw, true_implies, nextIdx]
    cases hp : (pools c.pool).policy with
    | RAN =>
      simp only [reduceCtorEq, false_implies, and_true]
      exact_mod_cast toSize_toInt_lt_iff (Nat.mod_lt _ (pools c.pool).nonempty) (pools c.pool).maxSize
    | RR =>
      simp only [true_implies]
      exact turn_iff (pools c.pool).maxSize h0 hi.1.2 (chosen_lt hd.1)
    | LB0 =>
      simp only [reduceCtorEq, false_implies, and_true]
      rcases leastLoaded_cases (pools c.pool).size c.load with ⟨h, hno⟩ | ⟨i, h, hi⟩
      · simp only [h, hno, false_implies, implies_true, iff_true]
        exact (pools c.pool).nonempty
      · rw [h, toSize_toInt_lt_iff hi.1 (pools c.pool).maxSize]
        exact ⟨fun hf j hj => hj.unique hi ▸ hf, fun hf => hf i hi⟩
  · have hsame : ∀ p, chosen (run pools s c) p = chosen s p := fun p => by simp [chosen_run, hw]
    simpa [InTurn, hw, hsame] using hrr

/-- A process dispatches as promised throughout exactly when every call is in
its turn. `RR` only counts up: it is never in turn again once `idx` has reached
the last worker, or once another call has moved `idx`. -/
theorem dispatches_iff_inTurn (cs : List (Call ι)) :
    (ThreadPools pools).Always (Dispatches pools) ⟨0, []⟩ cs ↔
      (ThreadPools pools).Guarded (InTurn pools) ⟨0, []⟩ cs := by
  have hrun : ∀ s, ∃ t, (ThreadPools pools).run s cs = some t := by
    induction cs with
    | nil => exact fun s => ⟨s, rfl⟩
    | cons c cs ih => exact fun s => ih (run pools s c)
  obtain ⟨t, ht⟩ := hrun ⟨0, []⟩
  refine Lts.System.always_iff_guarded (J := IdxOk pools) (fun s c s' hi h => ?_) (fun s c s' hi hd h => ?_) ht ?_ ?_
  · cases h; exact idxOk_run hi c
  · cases h; exact dispatches_run hi hd c
  · exact ⟨by simp, fun _ => le_rfl⟩
  · refine ⟨fun e he => absurd he List.not_mem_nil, fun p _ => ⟨.nil, fun block hb k hk w hw => ?_⟩⟩
    obtain rfl : block = [] := by simpa [chosen] using hb
    have hk0 : k = 0 := by simpa [(pools p).nonempty.ne'] using hk.symm
    simp [hk0]

/-- One round-robin pool of four workers and four submissions: the tasks are to
go to the workers 1, 2, 3 and 4, and there is no worker 4. -/
theorem rr_leaves_range :
    ∃ s, (ThreadPools fun _ : Unit => ⟨.RR, 4, by decide, by decide⟩).Reachable s ∧
      s.calls.map (·.2) = [1, 2, 3, 4] ∧ ¬ Dispatches (fun _ : Unit => ⟨.RR, 4, by decide, by decide⟩) s := by
  have hr : (ThreadPools fun _ : Unit => ⟨.RR, 4, by decide, by decide⟩).run ⟨0, []⟩
      (List.replicate 4 ⟨(), -1, 0, fun _ => 0⟩) = some _ := rfl
  refine ⟨_, Lts.System.Reachable.run (.init rfl) hr, by decide, fun h => ?_⟩
  exact absurd (h.1 (⟨(), -1, 0, fun _ => 0⟩, 4) (by simp [run, nextIdx, toInt, toSize])) (by decide)

end Ycnt.Schedule

import Mathlib.Algebra.Group.Int.Defs
import Mathlib.Logic.Function.Basic
import Ycnt.Lib.Lts
/-!
# The latch

`CountDownLatch.h`. Its functions work under `mutex_` from the first line to the
last, so a step is a lock-protected section, as for the queues: the call of a
function up to its `wait` on `cv_` or its return, or what a woken thread does from
its new lock of `mutex_` on.
-/

namespace Ycnt

open Function

/-- Where a thread stands between two sections. -/
inductive LatchPc where
  | idle
  /-- Asleep on `cv_`, and not notified. -/
  | asleep
  | awake
  deriving DecidableEq, Repr

inductive LatchLabel (τ : Type*) where
  | wait (t : τ)
  | countDown (t : τ)
  /-- A woken thread locks `mutex_` again and retests the loop. -/
  | resume (t : τ)
  | spurious (t : τ)

/-- The least `int`. -/
def INT_MIN : Int := -2 ^ 31

/-- `count_`, the threads, and two histories: how many `countDown` have taken
effect, and the threads whose `wait` has returned. -/
structure Latch (τ : Type*) where
  count : Int
  thread : τ → LatchPc
  countedDown : Nat
  returned : List τ

namespace Latch

variable {τ : Type*} [DecidableEq τ]

/-- A constructed latch. -/
def create (count : Int) : Latch τ := ⟨count, fun _ => .idle, 0, []⟩

variable (s : Latch τ) (t : τ)

/-- The loop's test in `wait`, and what follows it. -/
def wait : Latch τ :=
  if s.count > 0 then { s with thread := update s.thread t .asleep }
  else { s with thread := update s.thread t .idle, returned := s.returned ++ [t] }

omit [DecidableEq τ] in
def notifyAll : Latch τ :=
  { s with thread := fun u => if s.thread u = .asleep then .awake else s.thread u }

omit [DecidableEq τ] in
/-- The least `int` cannot be decremented. -/
def countDown : Option (Latch τ) :=
  if s.count = INT_MIN then none
  else
    let s := { s with count := s.count - 1, countedDown := s.countedDown + 1 }
    some (if s.count = 0 then s.notifyAll else s)

def step : LatchLabel τ → Option (Latch τ)
  | .wait t => if s.thread t = .idle then some (s.wait t) else none
  | .countDown t => if s.thread t = .idle then s.countDown else none
  | .resume t => if s.thread t = .awake then some (s.wait t) else none
  | .spurious t => if s.thread t = .asleep then some { s with thread := update s.thread t .awake } else none

end Latch

/-- Any threads that use a latch made with `count`. -/
def CountDown (τ : Type*) [DecidableEq τ] (count : Nat) : Lts.System (Latch τ) (LatchLabel τ) where
  init s := s = .create count
  step s a := s.step a

namespace Latch

variable {τ : Type*} [DecidableEq τ] {count : Nat} {s s' : Latch τ}

/-- `count_` is what is left to count down; who sleeps has reason to, and who has
returned had reason to. -/
structure Counts (count : Nat) (s : Latch τ) : Prop where
  count_eq : s.count = count - s.countedDown
  asleep_pos : ∀ t, s.thread t = .asleep → 0 < s.count
  returned_le : s.returned ≠ [] → count ≤ s.countedDown

omit [DecidableEq τ] in
theorem create_counts : Counts count (create count : Latch τ) := by
  refine ⟨by simp [create], fun t ht => ?_, fun h => absurd rfl h⟩
  cases ht

/-- A `wait` sleeps while there is something to count down, and returns after that. -/
theorem wait_counts (hi : Counts count s) (t : τ) : Counts count (s.wait t) := by
  unfold wait
  split
  · rename_i hpos
    exact ⟨hi.count_eq, fun _ _ => hpos, hi.returned_le⟩
  · rename_i hpos
    refine ⟨hi.count_eq, fun u hu => ?_, fun _ => ?_⟩
    · by_cases hut : u = t
      · subst hut
        simp at hu
      · exact hi.asleep_pos u (by simpa [hut] using hu)
    · have := hi.count_eq
      dsimp only
      omega

omit [DecidableEq τ] in
theorem countDown_counts (hi : Counts count s) (h : s.countDown = some s') : Counts count s' := by
  simp only [countDown, Option.ite_none_left_eq_some] at h
  obtain ⟨-, h⟩ := h
  have hcount := hi.count_eq
  have hle : s.returned ≠ [] → count ≤ s.countedDown + 1 := fun hr => Nat.le_succ_of_le (hi.returned_le hr)
  obtain rfl := Option.some.inj h
  split
  · -- The last one wakes all sleepers.
    refine ⟨by dsimp only [notifyAll]; omega, fun t ht => ?_, hle⟩
    dsimp only [notifyAll] at ht
    split at ht
    · cases ht
    · contradiction
  · rename_i hne
    refine ⟨by dsimp only; omega, fun t ht => ?_, hle⟩
    have := hi.asleep_pos t ht
    dsimp only at hne ⊢
    omega

theorem step_counts {a : LatchLabel τ} (hi : Counts count s) (h : s.step a = some s') : Counts count s' := by
  cases a with
  | wait t | resume t =>
    simp only [step, Option.ite_none_right_eq_some, Option.some.injEq] at h
    obtain ⟨-, rfl⟩ := h
    exact wait_counts hi t
  | countDown t =>
    simp only [step, Option.ite_none_right_eq_some] at h
    exact countDown_counts hi h.2
  | spurious t =>
    simp only [step, Option.ite_none_right_eq_some, Option.some.injEq] at h
    obtain ⟨-, rfl⟩ := h
    refine ⟨hi.count_eq, fun u hu => ?_, hi.returned_le⟩
    by_cases hut : u = t
    · subst hut
      simp at hu
    · exact hi.asleep_pos u (by simpa [hut] using hu)

theorem reachable_counts (h : (CountDown τ count).Reachable s) : Counts count s := by
  refine h.inv (I := Counts count) (fun t ht => ?_) fun _ _ _ hi hs => step_counts hi hs
  obtain rfl : t = .create count := ht
  exact create_counts

/-- Once all is counted down no thread sleeps, and each that tests the loop returns. -/
theorem released (h : (CountDown τ count).Reachable s) (hdone : count ≤ s.countedDown) (t : τ) :
    s.thread t ≠ .asleep ∧ (s.wait t).thread t = .idle ∧ (s.wait t).returned = s.returned ++ [t] := by
  have hi := reachable_counts h
  have hcount := hi.count_eq
  have hw : s.wait t = { s with thread := update s.thread t .idle, returned := s.returned ++ [t] } := by
    rw [wait, if_neg (by omega)]
  refine ⟨fun ht => ?_, ?_, ?_⟩
  · have := hi.asleep_pos t ht
    omega
  · rw [hw]
    exact update_self _ _ _
  · rw [hw]

omit [DecidableEq τ] in
theorem countDown_returned (h : s.countDown = some s') : s'.returned = s.returned := by
  simp only [countDown, Option.ite_none_left_eq_some] at h
  obtain ⟨-, h⟩ := h
  obtain rfl := Option.some.inj h
  split <;> rfl

/-- A thread is back from `wait` only with an entry among the returned. -/
theorem wait_idle {t : τ} (h : (s.wait t).thread t = .idle) : (s.wait t).returned ≠ [] := by
  unfold wait at h ⊢
  split
  · rename_i hpos
    rw [if_pos hpos] at h
    simp at h
  · simp

end Latch

end Ycnt

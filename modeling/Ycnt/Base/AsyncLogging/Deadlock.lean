import Mathlib.Order.Fin.Basic
import Mathlib.Data.Fintype.Order
import Ycnt.Base.AsyncLogging.Locks
/-!
# The lock order of the asynchronous logger

Buckets before `mutex_`, `mutex_` before the pool: the mutexes a thread holds and
the one it wants next are in this order at every point of `append` and
`threadFunc`. So a thread holds one bucket at most, and no threads wait for each
other.
-/

namespace Ycnt

open Function Mutex

variable {n : Nat}

/-- The place of a mutex in the lock order. -/
def LogLock.rank : LogLock n → Fin 3
  | .node _ => 0
  | .front => 1
  | .pool => 2

/-- The mutex that the next step locks. -/
def AppendPc.wants : AppendPc n → Option (LogLock n)
  | .lockNode b _ => some (.node b)
  | .lockFront .. => some .front
  | .lockPool .. => some .pool
  | _ => none

def BackPc.wants : BackPc n → Option (LogLock n)
  | .lockWait | .woken | .lockFront _ | .lockSwap => some .front
  | .harvest i => if h : i < n then some (.node ⟨i, h⟩) else none
  | .lockPool _ | .lockSize _ | .lockPush _ => some .pool
  | _ => none

theorem AppendPc.held_sorted (pc : AppendPc n) : pc.held.Pairwise fun l l' => l'.rank < l.rank := by
  cases pc <;> simp [held, LogLock.rank]

theorem BackPc.held_sorted (pc : BackPc n) : pc.held.Pairwise fun l l' => l'.rank < l.rank := by
  cases pc <;> simp [held, LogLock.rank]

/-- What a thread takes next comes after all it holds. -/
theorem AppendPc.wants_sorted {pc : AppendPc n} {l : LogLock n} (hw : pc.wants = some l) :
    (l :: pc.held).Pairwise fun l l' => l'.rank < l.rank := by
  cases pc with
  | lockNode | lockFront | lockPool =>
    obtain rfl := Option.some.inj hw
    simp [held, LogLock.rank]
  | _ => cases hw

theorem BackPc.wants_sorted {pc : BackPc n} {l : LogLock n} (hw : pc.wants = some l) :
    (l :: pc.held).Pairwise fun l l' => l'.rank < l.rank := by
  cases pc with
  | lockWait | woken | lockFront | lockSwap | lockPool | lockSize | lockPush =>
    obtain rfl := Option.some.inj hw
    simp [held, LogLock.rank]
  | harvest i => exact List.pairwise_singleton _ _
  | _ => cases hw

namespace AsyncState

variable {s s' : AsyncState n} {front : Nat → AppendPc n} {back : BackPc n} {t : LogThread} {l : LogLock n}

def wants (front : Nat → AppendPc n) (back : BackPc n) : LogThread → Option (LogLock n)
  | .front tid => (front tid).wants
  | .back => back.wants

theorem held_sorted (front : Nat → AppendPc n) (back : BackPc n) (t : LogThread) :
    (held front back t).Pairwise fun l l' => l'.rank < l.rank := by
  cases t with
  | front tid => exact (front tid).held_sorted
  | back => exact back.held_sorted

theorem ordered (front : Nat → AppendPc n) (back : BackPc n) :
    Ordered LogLock.rank (held front back) (wants front back) := by
  intro t l hw l' hl'
  cases t with
  | front tid => exact (List.pairwise_cons.1 (AppendPc.wants_sorted hw)).1 l' hl'
  | back => exact (List.pairwise_cons.1 (BackPc.wants_sorted hw)).1 l' hl'

/-- A thread holds one bucket at most: two would have different ranks. -/
theorem held_node_unique {b b' : Fin n} (h : .node b ∈ held front back t) (h' : .node b' ∈ held front back t) : b = b' := by
  by_contra hne
  have hsymm : Std.Symm fun l l' : LogLock n => l.rank ≠ l'.rank := ⟨fun _ _ h => h.symm⟩
  have hrank := ((held_sorted front back t).imp fun hlt => hlt.ne').forall h h' (by simpa using hne)
  exact hrank rfl

/-! ## Acquisitions -/

/-- The next step of a thread in `append` or `threadFunc`. -/
def threadStep (s : AsyncState n) (now : String) : LogThread → Option (AsyncState n)
  | .front tid => s.frontStep tid
  | .back => s.backStep now

theorem lock_isSome : (s.lock t l).isSome ↔ s.mutex l = none := by
  simp [lock]

theorem frontStep_wants {tid : Nat} (hw : (s.front tid).wants = some l) : (s.frontStep tid).isSome ↔ s.mutex l = none := by
  cases hpc : s.front tid with
  | lockNode | lockFront | lockPool =>
    rw [hpc] at hw
    obtain rfl := Option.some.inj hw
    simp only [frontStep, hpc, Option.isSome_map, lock_isSome]
  | _ =>
    rw [hpc] at hw
    cases hw

theorem backStep_wants {now : String} (hw : s.back.wants = some l) : (s.backStep now).isSome ↔ s.mutex l = none := by
  cases hpc : s.back with
  | lockWait | woken | lockFront | lockSwap | lockPool | lockSize | lockPush =>
    rw [hpc] at hw
    obtain rfl := Option.some.inj hw
    simp only [backStep, hpc, Option.isSome_map, lock_isSome]
  | harvest i =>
    rw [hpc] at hw
    simp only [BackPc.wants, Option.dite_none_right_eq_some, Option.some.injEq] at hw
    obtain ⟨hi, rfl⟩ := hw
    simp only [backStep, hpc, dif_pos hi, Option.isSome_map, lock_isSome]
  | _ =>
    rw [hpc] at hw
    cases hw

/-- A thread that wants a mutex has a step exactly while the mutex is free. -/
theorem threadStep_wants {now : String} (hw : wants s.front s.back t = some l) :
    (s.threadStep now t).isSome ↔ s.mutex l = none := by
  cases t with
  | front tid => exact frontStep_wants hw
  | back => exact backStep_wants hw

/-- What a step can do to the mutexes of a thread. -/
inductive Takes (locks : List (LogLock n)) : List (LogLock n) → Prop
  | keep : Takes locks locks
  | take (l : LogLock n) : Takes locks (l :: locks)
  | release {l : LogLock n} {locks' : List (LogLock n)} : locks = l :: locks' → Takes locks locks'

theorem Takes.rank_lt {locks locks' : List (LogLock n)} {l' : LogLock n} (h : Takes locks locks')
    (hsorted : locks'.Pairwise fun l l' => l'.rank < l.rank) (hl : l ∈ locks') (hn : l ∉ locks) (hl' : l' ∈ locks) :
    l'.rank < l.rank := by
  cases h with
  | keep => exact absurd hl hn
  | take l₁ =>
    obtain rfl := (List.mem_cons.1 hl).resolve_right hn
    exact (List.pairwise_cons.1 hsorted).1 l' hl'
  | release heq => exact absurd (heq ▸ List.mem_cons_of_mem _ hl) hn

theorem takes_of_eq {locks locks' : List (LogLock n)} (h : locks' = locks) : Takes locks locks' := h ▸ .keep

theorem takes_of_cons {locks locks' : List (LogLock n)} (h : locks' = l :: locks) : Takes locks locks' := h ▸ .take l

theorem frontStep_takes {tid : Nat} (hs : s.frontStep tid = some s') (t : LogThread) :
    Takes (held s.front s.back t) (held s'.front s'.back t) := by
  obtain ⟨-, -, hback, hfront⟩ := frontStep_frame hs
  cases t with
  | back =>
    rcases hback with h | h
    · exact takes_of_eq (congrArg BackPc.held h)
    · exact takes_of_eq ((congrArg BackPc.held h).trans s.back.notified_held)
  | front u =>
    by_cases hu : u = tid
    · subst hu
      simp only [held]
      cases frontStep_inv hs with
      | lock _ hh => exact takes_of_cons (by simpa using hh)
      | unlock hh => exact .release (by simpa using hh)
      | move hh => exact takes_of_eq (by simpa [setFront] using hh)
      | take hpc => exact takes_of_cons (by simp [hpc]; rfl)
      | store hpc => exact takes_of_eq (by simp [setFront, hpc]; rfl)
      | handOver hpc => exact .release (by simp [setFront, unlock, emplaceFront, hpc]; rfl)
      | tryPop hpc => exact .release (by simp [setFront, unlock, hpc]; rfl)
      | refill hpc => exact takes_of_eq (by simp [setFront, hpc]; rfl)
    · exact takes_of_eq (congrArg AppendPc.held (hfront u hu))

theorem backStep_takes {now : String} (hs : s.backStep now = some s') (t : LogThread) :
    Takes (held s.front s.back t) (held s'.front s'.back t) := by
  cases t with
  | front u => exact takes_of_eq (congrArg (fun front => (front u).held) (backStep_frame hs).2.2.1)
  | back =>
    simp only [held]
    cases backStep_inv hs with
    | lock _ hh => exact takes_of_cons hh
    | unlock hh => exact .release hh
    | move hh => exact takes_of_eq hh
    | handOver hpc | drop hpc | write hpc | written hpc | recycle hpc | recycled hpc =>
      exact takes_of_eq (by rw [hpc]; rfl)
    | tryPop hpc | refill hpc | swap hpc | push hpc => exact .release (by rw [hpc]; rfl)

theorem step_takes [NeZero n] {a : LogLabel n} (hb : s.owner = .constructed → s.back = .notStarted)
    (hs : s.step a = some s') (t : LogThread) : Takes (held s.front s.back t) (held s'.front s'.back t) := by
  cases a with
  | start =>
    simp only [step, Option.ite_none_right_eq_some, Option.some.injEq] at hs
    obtain ⟨ho, rfl⟩ := hs
    cases t with
    | front u => exact .keep
    | back => exact takes_of_eq (by simp only [held]; rw [hb ho]; rfl)
  | stop =>
    simp only [step, Option.ite_none_right_eq_some, Option.some.injEq] at hs
    obtain ⟨-, rfl⟩ := hs
    exact .keep
  | owner =>
    simp only [step, ownerStep] at hs
    split at hs
    all_goals cases hs
    · exact .keep
    · cases t with
      | front u => exact .keep
      | back => exact takes_of_eq (BackPc.notified_held _)
    · exact .keep
  | append tid l =>
    simp only [step] at hs
    split at hs
    · rename_i hpc
      simp only [Option.some.injEq] at hs
      subst hs
      cases t with
      | back => exact .keep
      | front u =>
        by_cases hu : u = tid
        · subst hu
          exact takes_of_eq (by simp only [held]; rw [hpc]; simp [setFront]; rfl)
        · exact takes_of_eq (by simp [held, setFront, hu])
    · cases hs
  | front tid => exact frontStep_takes hs t
  | back now => exact backStep_takes hs t
  | timeout =>
    simp only [step] at hs
    split at hs
    · rename_i hpc
      simp only [Option.some.injEq] at hs
      subst hs
      cases t with
      | front u => exact .keep
      | back => exact takes_of_eq (by simp only [held]; rw [hpc]; rfl)
    · cases hs

end AsyncState

namespace AsyncLogging

open AsyncState

/-- In every reachable state, a thread that wants a mutex waits exactly while
another has it; a step that takes a mutex takes it after all that its thread holds,
in the order bucket, front, pool; no thread holds two buckets; and no threads wait
for mutexes held among them. -/
theorem no_deadlock [NeZero n] {s : AsyncState n} (h : (AsyncLogging n).Reachable s) :
    (∀ t l now, wants s.front s.back t = some l → ((s.threadStep now t).isSome ↔ s.mutex l = none)) ∧
    (∀ a s', (AsyncLogging n).step s a = some s' → ∀ t l, s.mutex l ≠ some t → s'.mutex l = some t →
      ∀ l', s.mutex l' = some t → l'.rank < l.rank) ∧
    (∀ t b b', s.mutex (.node b) = some t → s.mutex (.node b') = some t → b = b') ∧
    ∀ S : Set LogThread, ¬ Deadlock s.mutex (wants s.front s.back) S := by
  have hown := (locks h).owned
  refine ⟨fun t l now => threadStep_wants, fun a s' hs t l hl hl' l' hr => ?_, fun t b b' hb hb' => ?_, fun S => ?_⟩
  · -- The step puts `l` on top of what its thread holds.
    have hown' := (locks (h.step hs)).owned
    have hn : l ∉ held s.front s.back t := fun hmem => hl ((hown l t).2 hmem)
    exact (step_takes (unstarted h) hs t).rank_lt (held_sorted _ _ t) ((hown' l t).1 hl') hn ((hown l' t).1 hr)
  · exact held_node_unique ((hown _ t).1 hb) ((hown _ t).1 hb')
  · exact hown.not_deadlock (ordered _ _) S

/-- Thread 1 waits for the bucket that thread 0 has locked. -/
theorem no_deadlock_contended : ∃ s, (AsyncLogging 1).run .create
      [.append 0 ⟨fun _ => 0, 1, by decide⟩, .front 0, .append 1 ⟨fun _ => 0, 1, by decide⟩] = some s ∧
    wants s.front s.back (.front 1) = some (.node 0) ∧ s.mutex (.node 0) = some (.front 0) ∧
    ∀ S : Set LogThread, ¬ Deadlock s.mutex (wants s.front s.back) S := by
  have hr : (AsyncLogging 1).run .create
      [.append 0 ⟨fun _ => 0, 1, by decide⟩, .front 0, .append 1 ⟨fun _ => 0, 1, by decide⟩] = some _ := rfl
  obtain ⟨-, -, -, hdead⟩ := no_deadlock (Lts.System.Reachable.run (.init rfl) hr)
  exact ⟨_, hr, rfl, rfl, hdead⟩

end AsyncLogging

end Ycnt

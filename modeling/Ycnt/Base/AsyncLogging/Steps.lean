import Ycnt.Base.AsyncLogging
/-!
# The steps of the asynchronous logger

What a program counter says of its thread: the mutexes it holds, the bucket it has
left without a buffer, the line it has to store, the buffer it carries. A step
that takes a mutex, releases one or only tests changes nothing else; `FrontStep`
and `BackStep` list the steps that do.
-/

namespace Ycnt

open Function

variable {n : Nat}

def AppendPc.held : AppendPc n → List (LogLock n)
  | .idle | .lockNode .. => []
  | .test b _ | .lockFront b _ | .lockPool b _ | .refill b _ _ | .unlockNode b => [.node b]
  | .handOver b _ => [.front, .node b]
  | .tryPop b _ => [.pool, .node b]

def BackPc.held : BackPc n → List (LogLock n)
  | .emptyTest | .waited | .swap => [.front]
  | .lengthTest b | .lockFront b | .unlockNode b => [.node b]
  | .handOver b | .lockPool b | .refill b _ => [.front, .node b]
  | .tryPop b => [.pool, .front, .node b]
  | .sizeTest _ | .push _ => [.pool]
  | _ => []

theorem AppendPc.held_nodup (pc : AppendPc n) : pc.held.Nodup := by
  cases pc <;> simp [held]

theorem BackPc.held_nodup (pc : BackPc n) : pc.held.Nodup := by
  cases pc <;> simp [held]

/-- The bucket a thread has left without a buffer. -/
def AppendPc.gap : AppendPc n → Option (Fin n)
  | .lockPool b _ | .tryPop b _ | .refill b _ _ => some b
  | _ => none

def BackPc.gap : BackPc n → Option (Fin n)
  | .lockPool b | .tryPop b | .refill b _ => some b
  | _ => none

/-- The line that a thread has still to store in the bucket whose mutex it holds. -/
def AppendPc.underway : AppendPc n → Option (Fin n × Line)
  | .test b l | .lockFront b l | .handOver b l | .lockPool b l | .tryPop b l | .refill b l _ => some (b, l)
  | _ => none

/-- The buffer a thread brings from the pool. -/
def AppendPc.carried : AppendPc n → Option (LogBuffer n)
  | .refill _ _ buf => buf
  | _ => none

/-- The buffer the back end brings from the pool or back to it. -/
def BackPc.carried : BackPc n → Option (LogBuffer n)
  | .refill _ buf => buf
  | .lockSize buf | .sizeTest buf | .lockPush buf | .push buf => some buf
  | _ => none

/-- What a round has taken over and still holds. -/
inductive BackPc.Phase where
  /-- Nothing: before the swap and after the loop that recycles. -/
  | clear
  | taken
  | writing (k : Nat)
  | recycling

def BackPc.phase : BackPc n → BackPc.Phase
  | .dropTest => .taken
  | .write k => .writing k
  | .recycle | .lockSize _ | .sizeTest _ | .lockPush _ | .push _ => .recycling
  | _ => .clear

section

variable (pc : BackPc n)

@[simp] theorem BackPc.notified_held : pc.notified.held = pc.held := by
  cases pc <;> rfl

@[simp] theorem BackPc.notified_gap : pc.notified.gap = pc.gap := by
  cases pc <;> rfl

@[simp] theorem BackPc.notified_carried : pc.notified.carried = pc.carried := by
  cases pc <;> rfl

@[simp] theorem BackPc.notified_phase : pc.notified.phase = pc.phase := by
  cases pc <;> rfl

end

/-- From `pc` to `pc'` a thread does nothing with a buffer or a line. -/
structure AppendPc.Quiet (pc pc' : AppendPc n) : Prop where
  gap : pc'.gap = pc.gap
  underway : pc'.underway = pc.underway
  carried : pc'.carried = none

structure BackPc.Quiet (pc pc' : BackPc n) : Prop where
  gap : pc'.gap = pc.gap
  phase : pc'.phase = pc.phase
  carried : pc'.carried = none ∨ pc'.carried = pc.carried

theorem BackPc.quiet_notified (pc : BackPc n) : pc.Quiet pc.notified :=
  ⟨pc.notified_gap, pc.notified_phase, .inr pc.notified_carried⟩

namespace AsyncState

variable {s s' : AsyncState n} {tid : Nat} {now : String}

theorem lock_eq_some {t : LogThread} {l : LogLock n} :
    s.lock t l = some s' ↔ s.mutex l = none ∧ s' = { s with mutex := update s.mutex l (some t) } := by
  simp [lock, eq_comm]

/-- The steps of thread `tid` in `append`. -/
inductive FrontStep (s : AsyncState n) (tid : Nat) : AsyncState n → Prop
  | lock {l : LogLock n} {pc : AppendPc n} : s.mutex l = none → pc.held = l :: (s.front tid).held → (s.front tid).Quiet pc →
      FrontStep s tid { s with mutex := update s.mutex l (some (.front tid)), front := update s.front tid pc }
  | unlock {l : LogLock n} {pc : AppendPc n} : (s.front tid).held = l :: pc.held → (s.front tid).Quiet pc →
      FrontStep s tid { s with mutex := update s.mutex l none, front := update s.front tid pc }
  | move {pc : AppendPc n} : pc.held = (s.front tid).held → (s.front tid).Quiet pc → FrontStep s tid (s.setFront tid pc)
  | take {b : Fin n} {l : Line} : s.front tid = .lockNode b l → s.mutex (.node b) = none →
      FrontStep s tid { s with
        mutex := update s.mutex (.node b) (some (.front tid))
        front := update s.front tid (.test b l)
        taken := update s.taken b (s.taken b ++ [l]) }
  | store {b : Fin n} {l : Line} {buf : LogBuffer n} : s.front tid = .test b l → s.node b = some buf →
      l.len < buf.buffer.avail → FrontStep s tid ((s.store b buf l).setFront tid (.unlockNode b))
  | handOver {b : Fin n} {l : Line} {buf : LogBuffer n} : s.front tid = .handOver b l → s.node b = some buf →
      FrontStep s tid { ((s.emplaceFront b buf).unlock .front).setFront tid (.lockPool b l) with back := s.back.notified }
  | tryPop {b : Fin n} {l : Line} : s.front tid = .tryPop b l →
      FrontStep s tid { (s.unlock .pool).setFront tid (.refill b l s.emptyBuffers.head?) with
        emptyBuffers := s.emptyBuffers.tail }
  | refill {b : Fin n} {l : Line} {buf : Option (LogBuffer n)} : s.front tid = .refill b l buf →
      FrontStep s tid ((s.store b (buf.getD .new) l).setFront tid (.unlockNode b))

theorem frontStep_inv (hs : s.frontStep tid = some s') : FrontStep s tid s' := by
  cases hpc : s.front tid with
  | idle => simp [frontStep, hpc] at hs
  | lockNode b l =>
    simp only [frontStep, hpc, Option.map_eq_some_iff, lock_eq_some] at hs
    obtain ⟨_, ⟨hl, rfl⟩, rfl⟩ := hs
    exact .take hpc hl
  | test b l =>
    simp only [frontStep, hpc, Option.map_eq_some_iff] at hs
    obtain ⟨buf, hbuf, rfl⟩ := hs
    split
    · rename_i hlt
      exact .store hpc hbuf hlt
    · refine .move ?_ ?_ <;> rw [hpc]
      · rfl
      · exact ⟨rfl, rfl, rfl⟩
  | lockFront b l | lockPool b l =>
    simp only [frontStep, hpc, Option.map_eq_some_iff, lock_eq_some] at hs
    obtain ⟨_, ⟨hl, rfl⟩, rfl⟩ := hs
    refine .lock hl ?_ ?_ <;> rw [hpc]
    · rfl
    · exact ⟨rfl, rfl, rfl⟩
  | handOver b l =>
    simp only [frontStep, hpc, Option.map_eq_some_iff] at hs
    obtain ⟨buf, hbuf, rfl⟩ := hs
    exact .handOver hpc hbuf
  | tryPop b l =>
    simp only [frontStep, hpc, Option.some.injEq] at hs
    exact hs ▸ .tryPop hpc
  | refill b l buf =>
    simp only [frontStep, hpc, Option.some.injEq] at hs
    exact hs ▸ .refill hpc
  | unlockNode b =>
    simp only [frontStep, hpc, Option.some.injEq] at hs
    subst hs
    refine .unlock (l := .node b) ?_ ?_ <;> rw [hpc]
    · rfl
    · exact ⟨rfl, rfl, rfl⟩

/-- The steps of the back end in `threadFunc`. -/
inductive BackStep (s : AsyncState n) (now : String) : AsyncState n → Prop
  | lock {l : LogLock n} {pc : BackPc n} : s.mutex l = none → pc.held = l :: s.back.held → s.back.Quiet pc →
      BackStep s now { s with mutex := update s.mutex l (some .back), back := pc }
  | unlock {l : LogLock n} {pc : BackPc n} : s.back.held = l :: pc.held → s.back.Quiet pc →
      BackStep s now { s with mutex := update s.mutex l none, back := pc }
  | move {pc : BackPc n} : pc.held = s.back.held → s.back.Quiet pc → BackStep s now (s.setBack pc)
  | handOver {b : Fin n} {buf : LogBuffer n} : s.back = .handOver b → s.node b = some buf →
      BackStep s now ((s.emplaceFront b buf).setBack (.lockPool b))
  | tryPop {b : Fin n} : s.back = .tryPop b →
      BackStep s now { (s.unlock .pool).setBack (.refill b s.emptyBuffers.head?) with emptyBuffers := s.emptyBuffers.tail }
  | refill {b : Fin n} {buf : Option (LogBuffer n)} : s.back = .refill b buf →
      BackStep s now
        { (s.unlock .front).setBack (.unlockNode b) with node := update s.node b (some (buf.getD .new)) }
  | swap : s.back = .swap →
      BackStep s now { (s.unlock .front).setBack .dropTest with
        backBuffers := s.frontBuffers
        frontBuffers := s.backBuffers
        unwritten := s.frontBuffers }
  | drop : s.back = .dropTest → BackStep s now ((s.dropBack now).setBack (.write 0))
  | write {k : Nat} {buf : LogBuffer n} : s.back = .write k → s.backBuffers[k]? = some buf →
      BackStep s now { s.setBack (.write (k + 1)) with
        output := s.output ++ [.buffer buf.buffer.contents]
        backBuffers := s.backBuffers.set k buf.reset
        unwritten := s.unwritten.tail
        retired := s.retired ++ [buf]
        written := s.written ++ [buf] }
  | written {k : Nat} : s.back = .write k → s.backBuffers[k]? = none →
      BackStep s now { s.setBack .recycle with retired := s.retired ++ s.dropping, dropping := [] }
  | recycle {buf : LogBuffer n} : s.back = .recycle → s.backBuffers.getLast? = some buf →
      BackStep s now { s.setBack (.lockSize buf) with backBuffers := s.backBuffers.dropLast }
  | recycled : s.back = .recycle → s.backBuffers.getLast? = none → BackStep s now (s.setBack .flush)
  | push {buf : LogBuffer n} : s.back = .push buf →
      BackStep s now { (s.unlock .pool).setBack .recycle with emptyBuffers := s.emptyBuffers ++ [buf] }

theorem backStep_inv (hs : s.backStep now = some s') : BackStep s now s' := by
  have hquiet : ∀ {pc pc' : BackPc n}, s.back = pc → pc'.gap = pc.gap → pc'.phase = pc.phase → pc'.carried = none →
      s.back.Quiet pc' := by
    rintro _ pc' rfl hg hp hc
    exact ⟨hg, hp, .inl hc⟩
  cases hpc : s.back with
  | notStarted | asleep | exited => simp [backStep, hpc] at hs
  | begin =>
    simp only [backStep, hpc, Option.ite_none_right_eq_some, Option.some.injEq] at hs
    obtain ⟨-, rfl⟩ := hs
    exact .move (hpc ▸ rfl) (hquiet hpc rfl rfl rfl)
  | loopTest =>
    simp only [backStep, hpc] at hs
    split at hs
    · split at hs
      · simp only [Option.some.injEq] at hs
        exact hs ▸ .move (hpc ▸ rfl) (hquiet hpc rfl rfl rfl)
      · cases hs
    · simp only [Option.some.injEq] at hs
      exact hs ▸ .move (hpc ▸ rfl) (hquiet hpc rfl rfl rfl)
  | lockWait | woken | lockSwap | lockFront b | lockPool b =>
    simp only [backStep, hpc, Option.map_eq_some_iff, lock_eq_some] at hs
    obtain ⟨_, ⟨hl, rfl⟩, rfl⟩ := hs
    exact .lock hl (hpc ▸ rfl) (hquiet hpc rfl rfl rfl)
  | lockSize buf | lockPush buf =>
    simp only [backStep, hpc, Option.map_eq_some_iff, lock_eq_some] at hs
    obtain ⟨_, ⟨hl, rfl⟩, rfl⟩ := hs
    exact .lock hl (hpc ▸ rfl) (hpc ▸ ⟨rfl, rfl, .inr rfl⟩)
  | emptyTest =>
    simp only [backStep, hpc, Option.some.injEq] at hs
    subst hs
    split <;> exact .unlock (hpc ▸ rfl) (hquiet hpc rfl rfl rfl)
  | waited | unlockNode b =>
    simp only [backStep, hpc, Option.some.injEq] at hs
    exact hs ▸ .unlock (hpc ▸ rfl) (hquiet hpc rfl rfl rfl)
  | harvest i =>
    simp only [backStep, hpc] at hs
    split at hs
    · simp only [Option.map_eq_some_iff, lock_eq_some] at hs
      obtain ⟨_, ⟨hl, rfl⟩, rfl⟩ := hs
      exact .lock hl (hpc ▸ rfl) (hquiet hpc rfl rfl rfl)
    · simp only [Option.some.injEq] at hs
      exact hs ▸ .move (hpc ▸ rfl) (hquiet hpc rfl rfl rfl)
  | lengthTest b =>
    simp only [backStep, hpc, Option.map_eq_some_iff] at hs
    obtain ⟨buf, -, rfl⟩ := hs
    split <;> exact .move (hpc ▸ rfl) (hquiet hpc rfl rfl rfl)
  | handOver b =>
    simp only [backStep, hpc, Option.map_eq_some_iff] at hs
    obtain ⟨buf, hbuf, rfl⟩ := hs
    exact .handOver hpc hbuf
  | tryPop b =>
    simp only [backStep, hpc, Option.some.injEq] at hs
    exact hs ▸ .tryPop hpc
  | refill b buf =>
    simp only [backStep, hpc, Option.some.injEq] at hs
    exact hs ▸ .refill hpc
  | swap =>
    simp only [backStep, hpc, Option.some.injEq] at hs
    exact hs ▸ .swap hpc
  | dropTest =>
    simp only [backStep, hpc, Option.some.injEq] at hs
    exact hs ▸ .drop hpc
  | write k =>
    simp only [backStep, hpc] at hs
    split at hs
    · rename_i hk
      simp only [Option.some.injEq] at hs
      exact hs ▸ .write hpc hk
    · rename_i hk
      simp only [Option.some.injEq] at hs
      exact hs ▸ .written hpc hk
  | recycle =>
    simp only [backStep, hpc] at hs
    split at hs
    · rename_i hb
      simp only [Option.some.injEq] at hs
      exact hs ▸ .recycle hpc hb
    · rename_i hb
      simp only [Option.some.injEq] at hs
      exact hs ▸ .recycled hpc hb
  | sizeTest buf =>
    simp only [backStep, hpc, Option.some.injEq] at hs
    subst hs
    split
    · exact .unlock (hpc ▸ rfl) (hpc ▸ ⟨rfl, rfl, .inr rfl⟩)
    · exact .unlock (hpc ▸ rfl) (hquiet hpc rfl rfl rfl)
  | push buf =>
    simp only [backStep, hpc, Option.some.injEq] at hs
    exact hs ▸ .push hpc
  | flush | finalFlush =>
    simp only [backStep, hpc, Option.some.injEq] at hs
    exact hs ▸ .move (hpc ▸ rfl) (hquiet hpc rfl rfl rfl)

end AsyncState

end Ycnt

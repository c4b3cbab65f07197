import Ycnt.Base.AsyncLogging.Conserve
/-!
# The buffer pool of the asynchronous logger

`LogBufferPool::push` tests the size of the pool in one lock section and inserts in
another. Only the back end pushes, so the place it has found free is still free
when it inserts.
-/

namespace Ycnt

open Function

variable {n : Nat}

/-- The places in the pool that the back end has found free and not filled yet. -/
def BackPc.reserved : BackPc n → Nat
  | .lockPush _ | .push _ => 1
  | _ => 0

@[simp] theorem BackPc.notified_reserved (pc : BackPc n) : pc.notified.reserved = pc.reserved := by
  cases pc <;> rfl

namespace AsyncState

variable {s s' : AsyncState n} {tid : Nat} {now : String}

/-- The pool has at most 16 buffers, also with the places reserved filled. -/
def Bounded (s : AsyncState n) : Prop := s.emptyBuffers.length + s.back.reserved ≤ 16

/-- Appending threads only take from the pool. -/
theorem frontStep_pool (hs : s.frontStep tid = some s') : s'.emptyBuffers.length ≤ s.emptyBuffers.length := by
  cases frontStep_inv hs with
  | tryPop =>
    show s.emptyBuffers.tail.length ≤ _
    rw [List.length_tail]
    exact Nat.sub_le _ _
  | lock | unlock | move | take | store | handOver | refill => exact Nat.le_refl _

theorem frontStep_bounded (h : s.Bounded) (hs : s.frontStep tid = some s') : s'.Bounded := by
  have hlen := frontStep_pool hs
  have hres : s'.back.reserved = s.back.reserved := by
    rcases (frontStep_frame hs).2.2.1 with hb | hb
    · rw [hb]
    · rw [hb, BackPc.notified_reserved]
  unfold Bounded at h ⊢
  omega

/-- The back end fills the place it has reserved, or takes from the pool. -/
theorem backStep_pool (hs : s.backStep now = some s') :
    s'.emptyBuffers.length ≤ s.emptyBuffers.length ∨
      s'.emptyBuffers.length = s.emptyBuffers.length + 1 ∧ s.back.reserved = 1 ∧ s'.back.reserved = 0 := by
  cases backStep_inv hs with
  | tryPop =>
    left
    show s.emptyBuffers.tail.length ≤ _
    rw [List.length_tail]
    exact Nat.sub_le _ _
  | push hpc => exact .inr ⟨List.length_append, by rw [hpc]; rfl, rfl⟩
  | drop =>
    left
    simp only [setBack, dropBack]
    split <;> exact Nat.le_refl _
  | lock | unlock | move | handOver | refill | swap | write | written | recycle | recycled => exact .inl (Nat.le_refl _)

/-- A place is reserved by the size test of `push` alone. -/
theorem backStep_reserved (hs : s.backStep now = some s') :
    s'.back.reserved ≤ s.back.reserved ∨
      s.emptyBuffers.length < 16 ∧ s'.emptyBuffers = s.emptyBuffers ∧ s'.back.reserved = 1 := by
  cases hpc : s.back with
  | sizeTest buf =>
    simp only [backStep, hpc, Option.some.injEq] at hs
    subst hs
    split
    · rename_i hlt
      exact .inr ⟨hlt, rfl, rfl⟩
    · exact .inl (Nat.le_refl _)
  | lockPush buf =>
    simp only [backStep, hpc, Option.map_eq_some_iff] at hs
    obtain ⟨_, -, rfl⟩ := hs
    exact .inl (Nat.le_refl _)
  | lockWait | woken | lockFront | lockPool | lockSwap | lockSize | handOver =>
    simp only [backStep, hpc, Option.map_eq_some_iff] at hs
    obtain ⟨_, -, rfl⟩ := hs
    exact .inl (Nat.zero_le _)
  | lengthTest b =>
    simp only [backStep, hpc, Option.map_eq_some_iff] at hs
    obtain ⟨_, -, rfl⟩ := hs
    left
    split <;> exact Nat.zero_le _
  | emptyTest =>
    simp only [backStep, hpc, Option.some.injEq] at hs
    subst hs
    left
    split <;> exact Nat.zero_le _
  | harvest i =>
    simp only [backStep, hpc] at hs
    split at hs
    · simp only [Option.map_eq_some_iff] at hs
      obtain ⟨_, -, rfl⟩ := hs
      exact .inl (Nat.zero_le _)
    · cases hs
      exact .inl (Nat.zero_le _)
  | notStarted | asleep | exited => simp [backStep, hpc] at hs
  | loopTest =>
    simp only [backStep, hpc] at hs
    split at hs
    · split at hs <;> cases hs
      exact .inl (Nat.zero_le _)
    · cases hs
      exact .inl (Nat.zero_le _)
  | begin | write | recycle =>
    simp only [backStep, hpc] at hs
    split at hs <;> cases hs <;> exact .inl (Nat.zero_le _)
  | waited | tryPop | refill | unlockNode | swap | dropTest | push | flush | finalFlush =>
    simp only [backStep, hpc, Option.some.injEq] at hs
    subst hs
    exact .inl (Nat.zero_le _)

theorem backStep_bounded (h : s.Bounded) (hs : s.backStep now = some s') : s'.Bounded := by
  unfold Bounded at h ⊢
  rcases backStep_pool hs with hp | ⟨hp, hr, hr'⟩
  · rcases backStep_reserved hs with hr | ⟨hlt, he, hr⟩
    · omega
    · rw [he, hr]
      exact hlt
  · rw [hp, hr']
    rwa [hr] at h

theorem ownerStep_bounded (h : s.Bounded) (hs : s.ownerStep = some s') : s'.Bounded := by
  unfold ownerStep at hs
  split at hs
  all_goals cases hs
  case h_4 =>
    unfold Bounded at h ⊢
    rwa [BackPc.notified_reserved]
  all_goals exact h

theorem step_bounded [NeZero n] {a : LogLabel n} (hb : s.owner = .constructed → s.back = .notStarted) (h : s.Bounded)
    (hs : s.step a = some s') : s'.Bounded := by
  cases a with
  | start =>
    simp only [step, Option.ite_none_right_eq_some, Option.some.injEq] at hs
    obtain ⟨ho, rfl⟩ := hs
    unfold Bounded at h
    rwa [hb ho] at h
  | stop =>
    simp only [step, Option.ite_none_right_eq_some, Option.some.injEq] at hs
    obtain ⟨-, rfl⟩ := hs
    exact h
  | owner => exact ownerStep_bounded h hs
  | append tid l =>
    simp only [step] at hs
    split at hs
    · cases hs
      exact h
    · cases hs
  | front tid => exact frontStep_bounded h hs
  | back now => exact backStep_bounded h hs
  | timeout =>
    simp only [step] at hs
    split at hs
    · rename_i hpc
      cases hs
      unfold Bounded at h
      rwa [hpc] at h
    · cases hs

end AsyncState

namespace AsyncLogging

variable [NeZero n] {s : AsyncState n}

theorem bounded (h : (AsyncLogging n).Reachable s) : s.Bounded :=
  h.inv_of (I := AsyncState.Bounded) (fun _ hr => unstarted hr)
    (fun _ h0 => by subst h0; show 4 + 0 ≤ 16; decide)
    fun _ _ _ hb hi hs => AsyncState.step_bounded hb hi hs

/-- A bucket whose mutex is free has a buffer. -/
theorem node_of_free (h : (AsyncLogging n).Reachable s) {b : Fin n} (hb : s.mutex (.node b) = none) :
    (s.node b).isSome := by
  cases hn : s.node b with
  | some buf => rfl
  | none =>
    obtain ⟨t, ht⟩ := ((locks h).gaps b).1 hn
    have hheld := ((locks h).owned _ _).2 (AsyncState.held_of_gap ht)
    rw [hb] at hheld
    cases hheld

/-- The pool is bounded and gives out empty buffers, in every reachable state. At
`refill` a thread has what `pop` returned: the buffer from the pool, or a new one.
No null pointer is handed over, so none comes round to the pool. -/
theorem pool_bounded (h : (AsyncLogging n).Reachable s) :
    s.emptyBuffers.length ≤ 16 ∧ (∀ buf ∈ s.emptyBuffers, buf.buffer.length = 0) ∧
    (∀ tid b l buf, s.front tid = .refill b l buf → (buf.getD .new).buffer.length = 0) ∧
    (∀ b buf, s.back = .refill b buf → (buf.getD .new).buffer.length = 0) ∧
    (∀ b tid l, s.front tid = .handOver b l → (s.node b).isSome) ∧ (∀ b, s.back = .handOver b → (s.node b).isSome) ∧
    ∀ b, s.mutex (.node b) = none → (s.node b).isSome := by
  have hp := (conserved h).pooled
  refine ⟨?_, fun buf hb => (hp.pool buf hb).length, ?_, ?_, ?_, ?_, fun b => node_of_free h⟩
  · have hb := bounded h
    unfold AsyncState.Bounded at hb
    exact (Nat.le_add_right _ _).trans hb
  · intro tid b l buf hpc
    refine (LogBuffer.getD_new_empty fun buf' hc => ?_).length
    apply hp.front tid buf'
    rw [hpc]
    exact hc
  · intro b buf hpc
    refine (LogBuffer.getD_new_empty fun buf' hc => ?_).length
    apply hp.back buf'
    rw [hpc]
    exact hc
  · intro b tid l hpc
    exact (node_isSome h b).1 tid l (.inr hpc)
  · intro b hpc
    exact (node_isSome h b).2 (.inr hpc)

/-- A line too long for its bucket's buffer, and a round of the back end up to its
first push. -/
def recycleRun : List (LogLabel 1) :=
  appendFull (blanks kLargeBufferSize (Nat.le_refl _)) ++ .start :: List.replicate 24 (.back "now")

theorem pool_bounded_recycle : ∃ s, (AsyncLogging 1).run .create recycleRun = some s ∧ s.emptyBuffers.length = 3 ∧
    ∀ buf ∈ s.emptyBuffers, buf.buffer.length = 0 := by
  have hlen : ((AsyncLogging 1).run .create recycleRun).map (·.emptyBuffers.length) = some 3 := by decide +kernel
  obtain ⟨s, hs, hv⟩ := Option.map_eq_some_iff.1 hlen
  have h0 : (AsyncLogging 1).init .create := rfl
  exact ⟨s, hs, hv, (pool_bounded ((Lts.System.Reachable.init h0).run hs)).2.1⟩

end AsyncLogging

end Ycnt

import Ycnt.Base.AsyncLogging.Steps
/-!
# The locks of the asynchronous logger

A thread holds the mutexes that its program counter says. So a bucket's `buffer_`
is null only while the thread that has handed it over, and still holds the
bucket's mutex, fetches a new one from the pool.
-/

namespace Ycnt

open Function Mutex

variable {n : Nat}

namespace AsyncState

variable {s s' : AsyncState n} {front : Nat → AppendPc n} {back : BackPc n} {tid : Nat} {b : Fin n}

def held (front : Nat → AppendPc n) (back : BackPc n) : LogThread → List (LogLock n)
  | .front tid => (front tid).held
  | .back => back.held

def gap (front : Nat → AppendPc n) (back : BackPc n) : LogThread → Option (Fin n)
  | .front tid => (front tid).gap
  | .back => back.gap

theorem held_of_gap {t : LogThread} (h : gap front back t = some b) : .node b ∈ held front back t := by
  cases t with
  | front tid =>
    unfold gap at h
    unfold held
    cases hpc : front tid <;> simp_all [AppendPc.gap, AppendPc.held]
  | back =>
    unfold gap at h
    unfold held
    cases back <;> simp_all [BackPc.gap, BackPc.held]

theorem held_front (pc : AppendPc n) :
    held (update front tid pc) back = update (held front back) (.front tid) pc.held := by
  funext t
  cases t with
  | front u => by_cases hu : u = tid <;> simp [held, hu]
  | back => simp [held]

theorem held_back (pc : BackPc n) : held front pc = update (held front back) .back pc.held := by
  funext t
  cases t <;> simp [held]

theorem gap_front (pc : AppendPc n) :
    gap (update front tid pc) back = update (gap front back) (.front tid) pc.gap := by
  funext t
  cases t with
  | front u => by_cases hu : u = tid <;> simp [gap, hu]
  | back => simp [gap]

theorem gap_back (pc : BackPc n) : gap front pc = update (gap front back) .back pc.gap := by
  funext t
  cases t <;> simp [gap]

/-- The buckets without a buffer are those that some thread has left so. -/
def Gaps (node : Fin n → Option (LogBuffer n)) (gap : LogThread → Option (Fin n)) : Prop :=
  ∀ b, node b = none ↔ ∃ t, gap t = some b

/-- `t` puts a buffer into bucket `b`. -/
theorem Gaps.fill {node : Fin n → Option (LogBuffer n)} {gap : LogThread → Option (Fin n)} {t : LogThread}
    (h : Gaps node gap) (buf : LogBuffer n) (ht : gap t = none ∨ gap t = some b) (hu : ∀ u, gap u = some b → u = t) :
    Gaps (update node b (some buf)) (update gap t none) := by
  intro b'
  by_cases hb : b' = b
  · subst hb
    simp only [update_self, reduceCtorEq, false_iff, not_exists]
    intro u hg
    by_cases hut : u = t
    · subst hut; simp at hg
    · exact hut (hu u (by simpa [hut] using hg))
  · rw [update_of_ne hb, h b']
    constructor
    · rintro ⟨u, hg⟩
      have hut : u ≠ t := by
        rintro rfl
        rcases ht with ht | ht
        · simp [ht] at hg
        · exact hb (Option.some.inj (hg.symm.trans ht))
      exact ⟨u, by simpa [hut] using hg⟩
    · rintro ⟨u, hg⟩
      by_cases hut : u = t
      · subst hut; simp at hg
      · exact ⟨u, by simpa [hut] using hg⟩

/-- `t` takes the buffer of bucket `b` away. -/
theorem Gaps.leave {node : Fin n → Option (LogBuffer n)} {gap : LogThread → Option (Fin n)} {t : LogThread}
    (h : Gaps node gap) (ht : gap t = none) : Gaps (update node b none) (update gap t (some b)) := by
  intro b'
  by_cases hb : b' = b
  · subst hb
    simp only [update_self, true_iff]
    exact ⟨t, by simp⟩
  · rw [update_of_ne hb, h b']
    constructor
    · rintro ⟨u, hg⟩
      have hut : u ≠ t := by
        rintro rfl
        simp [ht] at hg
      exact ⟨u, by simpa [hut] using hg⟩
    · rintro ⟨u, hg⟩
      by_cases hut : u = t
      · subst hut; simp [Ne.symm hb] at hg
      · exact ⟨u, by simpa [hut] using hg⟩

/-- Mutexes and buffers are where the program counters say. -/
structure Locks (s : AsyncState n) : Prop where
  owned : Owned s.mutex (held s.front s.back)
  gaps : Gaps s.node (gap s.front s.back)

/-- A thread that holds a bucket's mutex and has left no gap there finds a buffer. -/
theorem Locks.node_isSome {t : LogThread} (h : s.Locks) (hh : .node b ∈ held s.front s.back t)
    (hg : gap s.front s.back t ≠ some b) : (s.node b).isSome := by
  cases hn : s.node b with
  | some buf => rfl
  | none =>
    obtain ⟨u, hu⟩ := (h.gaps b).1 hn
    exact absurd (h.owned.unique (held_of_gap hu) hh ▸ hu) hg

theorem create_locks : (create : AsyncState n).Locks := by
  refine ⟨fun l t => ?_, fun b => ?_⟩
  · cases t <;> simp [create, held, AppendPc.held, BackPc.held]
  · simp only [create, reduceCtorEq, false_iff, not_exists]
    intro t
    cases t <;> simp [gap, AppendPc.gap, BackPc.gap]

/-! ## A thread moves its program counter -/

section

variable {mutex : LogLock n → Option LogThread} {node : Fin n → Option (LogBuffer n)} {l : LogLock n}

theorem owned_front_lock {pc₀ pc : AppendPc n} (h : Owned mutex (held front back)) (hl : mutex l = none)
    (hpc : front tid = pc₀) (hh : pc.held = l :: pc₀.held) :
    Owned (update mutex l (some (.front tid))) (held (update front tid pc) back) := by
  rw [held_front, hh, ← hpc]
  exact h.acquire hl

theorem owned_front_unlock {pc₀ pc : AppendPc n} (h : Owned mutex (held front back)) (hpc : front tid = pc₀)
    (hh : pc₀.held = l :: pc.held) : Owned (update mutex l none) (held (update front tid pc) back) := by
  have hl := pc₀.held_nodup
  rw [hh] at hl
  have ht : held front back (.front tid) = l :: pc.held := (congrArg AppendPc.held hpc).trans hh
  rw [held_front]
  exact h.release ht (List.nodup_cons.1 hl).1

theorem owned_front_move {pc₀ pc : AppendPc n} (h : Owned mutex (held front back)) (hpc : front tid = pc₀)
    (hh : pc.held = pc₀.held) : Owned mutex (held (update front tid pc) back) := by
  rw [held_front, hh, ← hpc]
  exact h.move (t := .front tid) rfl

theorem gaps_front_move {pc₀ pc : AppendPc n} (h : Gaps node (gap front back)) (hpc : front tid = pc₀)
    (hg : pc.gap = pc₀.gap) : Gaps node (gap (update front tid pc) back) := by
  have ht : gap front back (.front tid) = pc.gap := (congrArg AppendPc.gap hpc).trans hg.symm
  rw [gap_front, ← ht, update_eq_self]
  exact h

theorem owned_back_lock {pc₀ pc : BackPc n} (h : Owned mutex (held front back)) (hl : mutex l = none)
    (hpc : back = pc₀) (hh : pc.held = l :: pc₀.held) : Owned (update mutex l (some .back)) (held front pc) := by
  rw [held_back pc, hh, ← hpc]
  exact h.acquire hl

theorem owned_back_unlock {pc₀ pc : BackPc n} (h : Owned mutex (held front back)) (hpc : back = pc₀)
    (hh : pc₀.held = l :: pc.held) : Owned (update mutex l none) (held front pc) := by
  have hl := pc₀.held_nodup
  rw [hh] at hl
  have ht : held front back .back = l :: pc.held := (congrArg BackPc.held hpc).trans hh
  rw [held_back pc]
  exact h.release ht (List.nodup_cons.1 hl).1

theorem owned_back_move {pc₀ pc : BackPc n} (h : Owned mutex (held front back)) (hpc : back = pc₀)
    (hh : pc.held = pc₀.held) : Owned mutex (held front pc) := by
  rw [held_back pc, hh, ← hpc]
  exact h.move (t := .back) rfl

theorem gaps_back_move {pc₀ pc : BackPc n} (h : Gaps node (gap front back)) (hpc : back = pc₀)
    (hg : pc.gap = pc₀.gap) : Gaps node (gap front pc) := by
  have ht : gap front back .back = pc.gap := (congrArg BackPc.gap hpc).trans hg.symm
  rw [gap_back pc, ← ht, update_eq_self]
  exact h

end

/-! ## Steps -/

theorem frontStep_locks (h : s.Locks) (hs : s.frontStep tid = some s') : s'.Locks := by
  obtain ⟨hown, hgaps⟩ := h
  have huniq : ∀ {t u b}, gap s.front s.back u = some b → .node b ∈ held s.front s.back t → u = t :=
    fun hu ht => hown.unique (held_of_gap hu) ht
  cases frontStep_inv hs with
  | lock hl hh hq => exact ⟨owned_front_lock hown hl rfl hh, gaps_front_move hgaps rfl hq.gap⟩
  | unlock hh hq => exact ⟨owned_front_unlock hown rfl hh, gaps_front_move hgaps rfl hq.gap⟩
  | move hh hq => exact ⟨owned_front_move hown rfl hh, gaps_front_move hgaps rfl hq.gap⟩
  | take hpc hl => exact ⟨owned_front_lock hown hl hpc rfl, gaps_front_move hgaps hpc rfl⟩
  | @store b l buf hpc =>
    refine ⟨owned_front_move hown hpc rfl, ?_⟩
    show Gaps _ (gap (update s.front tid (.unlockNode b)) s.back)
    rw [gap_front]
    refine hgaps.fill _ (.inl (by simp [gap, hpc, AppendPc.gap])) fun u hu => ?_
    exact huniq hu (by simp [held, hpc, AppendPc.held])
  | @handOver b l buf hpc =>
    refine ⟨?_, ?_⟩
    · refine owned_back_move ?_ rfl (BackPc.notified_held s.back)
      exact owned_front_unlock hown hpc rfl
    · refine gaps_back_move ?_ rfl (BackPc.notified_gap s.back)
      show Gaps (update s.node b none) (gap (update s.front tid (.lockPool b l)) s.back)
      rw [gap_front]
      exact hgaps.leave (by simp [gap, hpc, AppendPc.gap])
  | tryPop hpc => exact ⟨owned_front_unlock hown hpc rfl, gaps_front_move hgaps hpc rfl⟩
  | @refill b l buf hpc =>
    refine ⟨owned_front_move hown hpc rfl, ?_⟩
    show Gaps _ (gap (update s.front tid (.unlockNode b)) s.back)
    rw [gap_front]
    refine hgaps.fill _ (.inr (by simp [gap, hpc, AppendPc.gap])) fun u hu => ?_
    exact huniq hu (by simp [held, hpc, AppendPc.held])

theorem dropBack_eq (s : AsyncState n) (now : String) :
    (s.dropBack now).mutex = s.mutex ∧ (s.dropBack now).node = s.node ∧ (s.dropBack now).front = s.front ∧
      (s.dropBack now).back = s.back ∧ (s.dropBack now).owner = s.owner := by
  unfold dropBack
  split <;> exact ⟨rfl, rfl, rfl, rfl, rfl⟩

/-- The back end moves on without a lock, an unlock or a buffer. -/
theorem setBack_locks {pc : BackPc n} (h : s.Locks) (hh : pc.held = s.back.held) (hg : pc.gap = s.back.gap) :
    (s.setBack pc).Locks :=
  ⟨owned_back_move h.owned rfl hh, gaps_back_move h.gaps rfl hg⟩

theorem backStep_locks {now : String} (h : s.Locks) (hs : s.backStep now = some s') : s'.Locks := by
  obtain ⟨hown, hgaps⟩ := id h
  have huniq : ∀ {t u b}, gap s.front s.back u = some b → .node b ∈ held s.front s.back t → u = t :=
    fun hu ht => hown.unique (held_of_gap hu) ht
  cases backStep_inv hs with
  | lock hl hh hq => exact ⟨owned_back_lock hown hl rfl hh, gaps_back_move hgaps rfl hq.gap⟩
  | unlock hh hq => exact ⟨owned_back_unlock hown rfl hh, gaps_back_move hgaps rfl hq.gap⟩
  | move hh hq => exact setBack_locks h hh hq.gap
  | @handOver b buf hpc =>
    refine ⟨owned_back_move hown hpc rfl, ?_⟩
    show Gaps (update s.node b none) (gap s.front (.lockPool b))
    rw [gap_back]
    exact hgaps.leave (by simp [gap, hpc, BackPc.gap])
  | tryPop hpc => exact ⟨owned_back_unlock hown hpc rfl, gaps_back_move hgaps hpc rfl⟩
  | @refill b buf hpc =>
    refine ⟨owned_back_unlock hown hpc rfl, ?_⟩
    show Gaps (update s.node b _) (gap s.front (.unlockNode b))
    rw [gap_back]
    refine hgaps.fill _ (.inr (by simp [gap, hpc, BackPc.gap])) fun u hu => ?_
    exact huniq hu (by simp [held, hpc, BackPc.held])
  | swap hpc => exact ⟨owned_back_unlock hown hpc rfl, gaps_back_move hgaps hpc rfl⟩
  | drop hpc =>
    obtain ⟨hm, hn, hf, hb, -⟩ := dropBack_eq s now
    have hd : (s.dropBack now).Locks := by
      constructor
      · rw [hm, hf, hb]; exact hown
      · rw [hn, hf, hb]; exact hgaps
    exact setBack_locks hd (by rw [hb, hpc]; rfl) (by rw [hb, hpc]; rfl)
  | write hpc => exact ⟨owned_back_move hown hpc rfl, gaps_back_move hgaps hpc rfl⟩
  | written hpc => exact ⟨owned_back_move hown hpc rfl, gaps_back_move hgaps hpc rfl⟩
  | recycle hpc => exact ⟨owned_back_move hown hpc rfl, gaps_back_move hgaps hpc rfl⟩
  | recycled hpc => exact ⟨owned_back_move hown hpc rfl, gaps_back_move hgaps hpc rfl⟩
  | push hpc => exact ⟨owned_back_unlock hown hpc rfl, gaps_back_move hgaps hpc rfl⟩

theorem ownerStep_locks (h : s.Locks) (hs : s.ownerStep = some s') : s'.Locks := by
  unfold ownerStep at hs
  split at hs
  · cases hs
  · cases hs
  · simp only [Option.some.injEq] at hs
    exact hs ▸ ⟨h.owned, h.gaps⟩
  · simp only [Option.some.injEq] at hs
    subst hs
    exact ⟨owned_back_move h.owned rfl (BackPc.notified_held _), gaps_back_move h.gaps rfl (BackPc.notified_gap _)⟩
  · simp only [Option.some.injEq] at hs
    exact hs ▸ ⟨h.owned, h.gaps⟩
  · cases hs

/-! ## What a step leaves alone -/

theorem frontStep_frame (hs : s.frontStep tid = some s') :
    s'.owner = s.owner ∧ s'.running = s.running ∧ (s'.back = s.back ∨ s'.back = s.back.notified) ∧
      ∀ u, u ≠ tid → s'.front u = s.front u := by
  cases frontStep_inv hs with
  | handOver => exact ⟨rfl, rfl, .inr rfl, fun _ hu => update_of_ne hu _ _⟩
  | lock | unlock | move | take | store | tryPop | refill =>
    exact ⟨rfl, rfl, .inl rfl, fun _ hu => update_of_ne hu _ _⟩

theorem backStep_frame {now : String} (hs : s.backStep now = some s') :
    s'.owner = s.owner ∧ s'.running = s.running ∧ s'.front = s.front ∧ s'.taken = s.taken ∧ s'.appended = s.appended := by
  cases backStep_inv hs with
  | drop =>
    simp only [setBack, dropBack]
    split <;> exact ⟨rfl, rfl, rfl, rfl, rfl⟩
  | lock | unlock | move | handOver | tryPop | refill | swap | write | written | recycle | recycled | push =>
    exact ⟨rfl, rfl, rfl, rfl, rfl⟩

/-- There is no back end before `start`. -/
theorem step_unstarted [NeZero n] {a : LogLabel n} (h : s.owner = .constructed → s.back = .notStarted)
    (hs : s.step a = some s') : s'.owner = .constructed → s'.back = .notStarted := by
  intro ho
  cases a with
  | start =>
    simp only [step, Option.ite_none_right_eq_some, Option.some.injEq] at hs
    obtain ⟨-, rfl⟩ := hs
    cases ho
  | stop =>
    simp only [step, Option.ite_none_right_eq_some, Option.some.injEq] at hs
    obtain ⟨-, rfl⟩ := hs
    cases ho
  | owner =>
    simp only [step, ownerStep] at hs
    split at hs
    all_goals cases hs
    all_goals cases ho
  | append tid l =>
    simp only [step] at hs
    split at hs
    · simp only [Option.some.injEq] at hs
      subst hs
      exact h ho
    · cases hs
  | front tid =>
    rcases frontStep_frame hs with ⟨ho', -, hb | hb, -⟩
    · rw [hb, h (ho'.symm.trans ho)]
    · rw [hb, h (ho'.symm.trans ho)]
      rfl
  | back now =>
    have hb := h ((backStep_frame hs).1.symm.trans ho)
    simp [step, backStep, hb] at hs
  | timeout =>
    simp only [step] at hs
    split at hs
    · rename_i hpc
      simp only [Option.some.injEq] at hs
      subst hs
      simp [h ho] at hpc
    · cases hs

theorem step_locks [NeZero n] {a : LogLabel n} (hb : s.owner = .constructed → s.back = .notStarted) (h : s.Locks)
    (hs : s.step a = some s') : s'.Locks := by
  cases a with
  | start =>
    simp only [step, Option.ite_none_right_eq_some, Option.some.injEq] at hs
    obtain ⟨ho, rfl⟩ := hs
    exact ⟨owned_back_move h.owned (hb ho) rfl, gaps_back_move h.gaps (hb ho) rfl⟩
  | stop =>
    simp only [step, Option.ite_none_right_eq_some, Option.some.injEq] at hs
    obtain ⟨-, rfl⟩ := hs
    exact ⟨h.owned, h.gaps⟩
  | owner => exact ownerStep_locks h hs
  | append tid l =>
    simp only [step] at hs
    split at hs
    · rename_i hpc
      simp only [Option.some.injEq] at hs
      subst hs
      exact ⟨owned_front_move h.owned hpc rfl, gaps_front_move h.gaps hpc rfl⟩
    · cases hs
  | front tid => exact frontStep_locks h hs
  | back now => exact backStep_locks h hs
  | timeout =>
    simp only [step] at hs
    split at hs
    · rename_i hpc
      simp only [Option.some.injEq] at hs
      subst hs
      exact setBack_locks h (by rw [hpc]; rfl) (by rw [hpc]; rfl)
    · cases hs

end AsyncState

namespace AsyncLogging

variable [NeZero n] {s : AsyncState n}

theorem unstarted (h : (AsyncLogging n).Reachable s) : s.owner = .constructed → s.back = .notStarted :=
  h.inv (I := fun s => s.owner = .constructed → s.back = .notStarted) (fun _ h0 _ => h0 ▸ rfl)
    fun _ _ _ hi hs => AsyncState.step_unstarted hi hs

theorem locks (h : (AsyncLogging n).Reachable s) : s.Locks :=
  h.inv_of (I := AsyncState.Locks) (fun _ hr => unstarted hr) (fun _ h0 => h0 ▸ AsyncState.create_locks)
    fun _ _ _ hb hi hs => AsyncState.step_locks hb hi hs

/-- No null `buffer_` is used: neither in `append` nor in `threadFunc`. -/
theorem node_isSome (h : (AsyncLogging n).Reachable s) (b : Fin n) :
    (∀ tid l, s.front tid = .test b l ∨ s.front tid = .handOver b l → (s.node b).isSome) ∧
      (s.back = .lengthTest b ∨ s.back = .handOver b → (s.node b).isSome) := by
  refine ⟨fun tid l hpc => (locks h).node_isSome (t := .front tid) ?_ ?_, fun hpc => (locks h).node_isSome (t := .back) ?_ ?_⟩
  · rcases hpc with hpc | hpc <;> simp [AsyncState.held, hpc, AppendPc.held]
  · rcases hpc with hpc | hpc <;> simp [AsyncState.gap, hpc, AppendPc.gap]
  · rcases hpc with hpc | hpc <;> simp [AsyncState.held, hpc, BackPc.held]
  · rcases hpc with hpc | hpc <;> simp [AsyncState.gap, hpc, BackPc.gap]

end AsyncLogging

end Ycnt

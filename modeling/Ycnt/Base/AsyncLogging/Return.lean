import Ycnt.Lib.Variant
import Ycnt.Base.AsyncLogging.Deadlock
import Ycnt.Base.AsyncLogging.Stop
/-!
# Calls of the asynchronous logger return

That no threads wait for each other says little about how long they take. Here
the steps that are left to a thread in `append`, to the back end once `running_`
is cleared, and to the thread in `stop` are counted, a buffer in `frontBuffers_`
for the six steps that write and recycle it. Every step lowers the count, and
where none is left to take, the calls have returned.
-/

namespace Ycnt

open Function

variable {n : Nat}

/-- The steps left in `append`. A buffer handed over makes work for the back end. -/
def AppendPc.work : AppendPc n → Nat
  | .idle => 0
  | .lockNode .. => 14
  | .test .. => 13
  | .lockFront .. => 12
  | .handOver .. => 11
  | .lockPool .. => 4
  | .tryPop .. => 3
  | .refill .. => 2
  | .unlockNode _ => 1

/-- The steps left in `threadFunc` once `running_` is cleared, where `front` and
`back` are the lengths of `frontBuffers_` and `backBuffers_`. -/
def BackPc.work (front back : Nat) : BackPc n → Nat
  | .lockWait => 14 + 14 * n + 6 * front
  | .emptyTest => 13 + 14 * n + 6 * front
  | .asleep => 12 + 14 * n + 6 * front
  | .woken => 11 + 14 * n + 6 * front
  | .waited => 10 + 14 * n + 6 * front
  | .harvest i => 9 + 14 * (n - i) + 6 * front
  | .lengthTest b => 22 + 14 * (n - (b + 1)) + 6 * front
  | .lockFront b => 21 + 14 * (n - (b + 1)) + 6 * front
  | .handOver b => 20 + 14 * (n - (b + 1)) + 6 * front
  | .lockPool b => 13 + 14 * (n - (b + 1)) + 6 * front
  | .tryPop b => 12 + 14 * (n - (b + 1)) + 6 * front
  | .refill b _ => 11 + 14 * (n - (b + 1)) + 6 * front
  | .unlockNode b => 10 + 14 * (n - (b + 1)) + 6 * front
  | .lockSwap => 8 + 6 * front
  | .swap => 7 + 6 * front
  | .dropTest => 6 + 6 * back
  | .write k => 5 + 5 * back + (back - k)
  | .recycle => 4 + 5 * back
  | .lockSize _ => 8 + 5 * back
  | .sizeTest _ => 7 + 5 * back
  | .lockPush _ => 6 + 5 * back
  | .push _ => 5 + 5 * back
  | .flush => 3
  | .loopTest => 2
  | .finalFlush => 1
  | .exited | .notStarted | .begin => 0

/-- The back end is past `assert(running_ == true)` and the latch. -/
def BackPc.Begun : BackPc n → Prop
  | .notStarted | .begin => False
  | _ => True

/-- The steps left in `stop`. -/
def LogOwnerPc.work : LogOwnerPc → Nat
  | .notify => 2
  | .join => 1
  | _ => 0

/-- In `stop` after the line that clears `running_`, or back from it. -/
def LogOwnerPc.inStop : LogOwnerPc → Bool
  | .notify | .join | .stopped => true
  | _ => false

theorem BackPc.work_notified (front back : Nat) (pc : BackPc n) : pc.notified.work front back ≤ pc.work front back := by
  cases pc with
  | asleep => exact Nat.add_le_add_right (Nat.add_le_add_right (by decide) _) _
  | _ => exact Nat.le_refl _

/-- A buffer more in `frontBuffers_` is six steps at most. -/
theorem BackPc.work_handOver (front back : Nat) (pc : BackPc n) : pc.work (front + 1) back ≤ pc.work front back + 6 := by
  cases pc <;> simp only [work] <;> omega

namespace AsyncState

variable {s s' : AsyncState n} {tid : Nat}

/-- A thread in `append` takes one step: it moves on, and the back end has to do
what it is handed. -/
theorem frontStep_work (hs : s.frontStep tid = some s') :
    ∃ pc : AppendPc n, s'.front = update s.front tid pc ∧
      pc.work + s'.back.work s'.frontBuffers.length s'.backBuffers.length <
        (s.front tid).work + s.back.work s.frontBuffers.length s.backBuffers.length := by
  cases hpc : s.front tid with
  | idle => simp [frontStep, hpc] at hs
  | lockNode b l | lockFront b l | lockPool b l =>
    simp only [frontStep, hpc, Option.map_eq_some_iff, lock_eq_some] at hs
    obtain ⟨_, ⟨-, rfl⟩, rfl⟩ := hs
    exact ⟨_, rfl, Nat.add_lt_add_right (by simp only [AppendPc.work]; omega) _⟩
  | test b l =>
    simp only [frontStep, hpc, Option.map_eq_some_iff] at hs
    obtain ⟨buf, -, rfl⟩ := hs
    split <;> exact ⟨_, rfl, Nat.add_lt_add_right (by simp only [AppendPc.work]; omega) _⟩
  | handOver b l =>
    simp only [frontStep, hpc, Option.map_eq_some_iff] at hs
    obtain ⟨buf, -, rfl⟩ := hs
    refine ⟨.lockPool b l, rfl, ?_⟩
    have hnotified := s.back.work_notified (s.frontBuffers.length + 1) s.backBuffers.length
    have hbuffer := s.back.work_handOver s.frontBuffers.length s.backBuffers.length
    simp only [setFront, unlock, emplaceFront, List.length_append, List.length_singleton, AppendPc.work]
    omega
  | tryPop b l | refill b l buf | unlockNode b =>
    simp only [frontStep, hpc, Option.some.injEq] at hs
    subst hs
    exact ⟨_, rfl, Nat.add_lt_add_right (by simp only [AppendPc.work]; omega) _⟩

theorem dropBack_length (s : AsyncState n) (now : String) : (s.dropBack now).backBuffers.length ≤ s.backBuffers.length := by
  unfold dropBack
  split
  · exact List.length_take_le' _ _
  · exact Nat.le_refl _

/-- A step of the back end after `running_` was cleared. -/
theorem backStep_work {now : String} (hrun : s.running = false) (hs : s.backStep now = some s') :
    s'.back.work s'.frontBuffers.length s'.backBuffers.length <
      s.back.work s.frontBuffers.length s.backBuffers.length := by
  cases hpc : s.back with
  | notStarted | asleep | exited => simp [backStep, hpc] at hs
  | begin => simp [backStep, hpc, hrun] at hs
  | loopTest =>
    simp only [backStep, hpc, hrun, Bool.false_eq_true, if_false, Option.some.injEq] at hs
    subst hs
    exact Nat.lt_succ_self 1
  | lockWait | woken | lockSwap | lockFront b | lockPool b | lockSize buf | lockPush buf =>
    simp only [backStep, hpc, Option.map_eq_some_iff, lock_eq_some] at hs
    obtain ⟨_, ⟨-, rfl⟩, rfl⟩ := hs
    simp only [setBack, BackPc.work]
    omega
  | emptyTest | sizeTest buf =>
    simp only [backStep, hpc, Option.some.injEq] at hs
    subst hs
    split <;> simp only [setBack, unlock, BackPc.work] <;> omega
  | harvest i =>
    simp only [backStep, hpc] at hs
    split at hs
    · simp only [Option.map_eq_some_iff, lock_eq_some] at hs
      obtain ⟨_, ⟨-, rfl⟩, rfl⟩ := hs
      simp only [setBack, BackPc.work]
      omega
    · simp only [Option.some.injEq] at hs
      subst hs
      simp only [setBack, BackPc.work]
      omega
  | lengthTest b =>
    simp only [backStep, hpc, Option.map_eq_some_iff] at hs
    obtain ⟨buf, -, rfl⟩ := hs
    split <;> simp only [setBack, BackPc.work] <;> omega
  | handOver b =>
    simp only [backStep, hpc, Option.map_eq_some_iff] at hs
    obtain ⟨buf, -, rfl⟩ := hs
    simp only [setBack, emplaceFront, BackPc.work, List.length_append, List.length_singleton]
    omega
  | dropTest =>
    simp only [backStep, hpc, Option.some.injEq] at hs
    subst hs
    have hlen := s.dropBack_length now
    simp only [setBack, BackPc.work]
    omega
  | write k =>
    simp only [backStep, hpc] at hs
    split at hs
    · rename_i buf hk
      simp only [Option.some.injEq] at hs
      subst hs
      have hlt : k < s.backBuffers.length := (List.getElem?_eq_some_iff.1 hk).1
      simp only [setBack, BackPc.work, List.length_set]
      omega
    · simp only [Option.some.injEq] at hs
      subst hs
      simp only [setBack, BackPc.work]
      omega
  | recycle =>
    simp only [backStep, hpc] at hs
    split at hs
    · rename_i buf hlast
      simp only [Option.some.injEq] at hs
      subst hs
      have hpos : 0 < s.backBuffers.length := List.length_pos_of_mem (List.mem_of_getLast? hlast)
      simp only [setBack, BackPc.work, List.length_dropLast]
      omega
    · simp only [Option.some.injEq] at hs
      subst hs
      simp only [setBack, BackPc.work]
      omega
  | waited | tryPop b | refill b buf | unlockNode b | swap | push buf | flush | finalFlush =>
    simp only [backStep, hpc, Option.some.injEq] at hs
    subst hs
    simp only [setBack, unlock, BackPc.work]
    omega

/-- The steps left to all threads. -/
noncomputable def work (s : AsyncState n) : Nat :=
  finsum (AppendPc.work ∘ s.front) + s.back.work s.frontBuffers.length s.backBuffers.length + s.owner.work

theorem frontStep_lowers (hf : (AppendPc.work ∘ s.front).HasFiniteSupport) (hs : s.frontStep tid = some s') :
    (AppendPc.work ∘ s'.front).HasFiniteSupport ∧ s'.work < s.work := by
  obtain ⟨pc, hfront, hlt⟩ := frontStep_work hs
  have hsum := Work.finsum_update hf tid pc.work
  have howner := (frontStep_frame hs).1
  rw [work, hfront, comp_update, howner, work]
  refine ⟨Work.hasFiniteSupport_update hf _ _, ?_⟩
  simp only [comp_apply] at hsum
  omega

/-- A new call of `append` makes fourteen steps. -/
theorem append_raises {b : Fin n} {l : Line} (hf : (AppendPc.work ∘ s.front).HasFiniteSupport) (hpc : s.front tid = .idle) :
    (AppendPc.work ∘ (s.setFront tid (.lockNode b l)).front).HasFiniteSupport ∧
      (s.setFront tid (.lockNode b l)).work = s.work + 14 := by
  have hsum := Work.finsum_update hf tid (AppendPc.work (.lockNode b l))
  simp only [comp_apply, hpc, AppendPc.work] at hsum
  simp only [work, setFront, comp_update, AppendPc.work]
  refine ⟨Work.hasFiniteSupport_update hf _ _, ?_⟩
  omega

/-! ## Where no step is left -/

/-- A thread in `append` that wants no mutex goes on. -/
theorem frontStep_goes (h : s.Locks) (hpc : s.front tid ≠ .idle) (hw : (s.front tid).wants = none) :
    (s.frontStep tid).isSome := by
  cases hfront : s.front tid with
  | idle => exact absurd hfront hpc
  | lockNode | lockFront | lockPool => simp [hfront, AppendPc.wants] at hw
  | test b l | handOver b l =>
    have hnode := h.node_isSome (b := b) (t := .front tid) (by simp [held, hfront, AppendPc.held])
      (by simp [gap, hfront, AppendPc.gap])
    simp [frontStep, hfront, hnode]
  | tryPop | refill | unlockNode => simp [frontStep, hfront]

/-- The back end goes on once `running_` is cleared, unless it sleeps or wants a mutex. -/
theorem backStep_goes {now : String} (h : s.Locks) (hrun : s.running = false) (hbegun : s.back.Begun)
    (hsleep : s.back ≠ .asleep) (hexit : s.back ≠ .exited) (hw : s.back.wants = none) :
    (s.backStep now).isSome := by
  cases hback : s.back with
  | notStarted | begin =>
    rw [hback] at hbegun
    exact hbegun.elim
  | asleep => exact absurd hback hsleep
  | exited => exact absurd hback hexit
  | lockWait | woken | lockFront | lockSwap | lockPool | lockSize | lockPush => simp [hback, BackPc.wants] at hw
  | harvest i =>
    have hi : ¬ i < n := by simpa [hback, BackPc.wants] using hw
    simp [backStep, hback, hi]
  | lengthTest b | handOver b =>
    have hnode := h.node_isSome (b := b) (t := .back) (by simp [held, hback, BackPc.held])
      (by simp [gap, hback, BackPc.gap])
    simp [backStep, hback, hnode]
  | loopTest => simp [backStep, hback, hrun]
  | write k =>
    simp only [backStep, hback]
    split <;> rfl
  | recycle =>
    simp only [backStep, hback]
    split <;> rfl
  | emptyTest | waited | tryPop | refill | unlockNode | swap | dropTest | sizeTest | push | flush | finalFlush =>
    simp [backStep, hback]

/-- Where no thread in `append` has a step and the back end holds no mutex, or
waits for one itself, there is no thread in `append`, and the back end has not
waited for a mutex. -/
theorem idle_of_rest (h : s.Locks)
    (hback : s.back.held ≠ [] → ∃ l, s.back.wants = some l ∧ s.mutex l ≠ none) (hrest : ∀ tid, s.frontStep tid = none) :
    (∀ tid, s.front tid = .idle) ∧ ∀ l, s.back.wants = some l → s.mutex l = none := by
  have hwaits : ∀ tid, s.front tid ≠ .idle → ∃ l, (s.front tid).wants = some l ∧ s.mutex l ≠ none := by
    intro tid hpc
    cases hw : (s.front tid).wants with
    | none => simpa [hrest tid] using frontStep_goes h hpc hw
    | some l => exact ⟨l, rfl, fun hl => by simpa [hrest tid] using (frontStep_wants hw).2 hl⟩
  have hfree : ∀ t l, wants s.front s.back t = some l → s.mutex l = none := fun t l hl => by
    refine h.owned.free_of_waiting (ordered s.front s.back) (fun u hu => ?_) hl
    cases u with
    | back => exact hback hu
    | front tid => exact hwaits tid fun hpc => hu (by simp [held, hpc, AppendPc.held])
  refine ⟨fun tid => ?_, hfree .back⟩
  by_contra hpc
  obtain ⟨l, hl, hn⟩ := hwaits tid hpc
  exact hn (hfree (.front tid) l hl)

/-! ## After `stop` was called -/

/-- What the owner's place says of `running_` and of the back end, and that
finitely many threads are in `append`. -/
structure Returning (s : AsyncState n) : Prop where
  running : s.owner.inStop = true → s.running = false
  begun : s.owner = .constructed ∨ s.owner = .starting ∨ s.back.Begun
  finite : (AppendPc.work ∘ s.front).HasFiniteSupport

theorem notified_begun {pc : BackPc n} (h : pc.Begun) : pc.notified.Begun := by
  cases pc <;> exact h

theorem backStep_begun {now : String} (hs : s.backStep now = some s') : s'.back.Begun := by
  cases hpc : s.back with
  | notStarted | asleep | exited => simp [backStep, hpc] at hs
  | begin =>
    simp only [backStep, hpc, Option.ite_none_right_eq_some, Option.some.injEq] at hs
    obtain ⟨-, rfl⟩ := hs
    trivial
  | loopTest =>
    simp only [backStep, hpc] at hs
    split at hs
    · split at hs <;> cases hs
      trivial
    · cases hs
      trivial
  | lockWait | woken | lockSwap | lockFront b | lockPool b | lockSize buf | lockPush buf | handOver b =>
    simp only [backStep, hpc, Option.map_eq_some_iff] at hs
    obtain ⟨_, -, rfl⟩ := hs
    trivial
  | lengthTest b =>
    simp only [backStep, hpc, Option.map_eq_some_iff] at hs
    obtain ⟨buf, -, rfl⟩ := hs
    simp only [setBack]
    split <;> trivial
  | harvest i =>
    simp only [backStep, hpc] at hs
    split at hs
    · obtain ⟨_, -, rfl⟩ := Option.map_eq_some_iff.1 hs
      trivial
    · cases hs
      trivial
  | write k | recycle =>
    simp only [backStep, hpc] at hs
    split at hs <;> cases hs <;> trivial
  | emptyTest | sizeTest buf =>
    simp only [backStep, hpc, Option.some.injEq] at hs
    subst hs
    simp only [setBack]
    split <;> trivial
  | waited | tryPop | refill | unlockNode | swap | dropTest | push | flush | finalFlush =>
    simp only [backStep, hpc, Option.some.injEq] at hs
    subst hs
    trivial

theorem create_returning : (create : AsyncState n).Returning :=
  ⟨fun h => (by cases h), .inl rfl, Set.finite_empty.subset fun tid h => h rfl⟩

theorem step_returning [NeZero n] {a : LogLabel n} (h : s.Returning) (hs : s.step a = some s') : s'.Returning := by
  obtain ⟨hrun, hbegun, hfin⟩ := h
  cases a with
  | start =>
    simp only [step, Option.ite_none_right_eq_some, Option.some.injEq] at hs
    obtain ⟨-, rfl⟩ := hs
    exact ⟨fun h => (by cases h), .inr (.inl rfl), hfin⟩
  | stop =>
    simp only [step, Option.ite_none_right_eq_some, Option.some.injEq] at hs
    obtain ⟨ho, rfl⟩ := hs
    simp only [ho, reduceCtorEq, false_or] at hbegun
    exact ⟨fun _ => rfl, .inr (.inr hbegun), hfin⟩
  | owner =>
    simp only [step, ownerStep] at hs
    split at hs
    · cases hs
    · cases hs
    · rename_i hnew hbegin
      cases hs
      refine ⟨fun h => (by cases h), .inr (.inr ?_), hfin⟩
      cases hpc : s.back with
      | notStarted => exact hnew hpc
      | begin => exact hbegin hpc
      | _ => trivial
    · rename_i ho
      cases hs
      simp only [ho, reduceCtorEq, false_or] at hbegun
      exact ⟨fun _ => hrun (ho ▸ rfl), .inr (.inr (notified_begun hbegun)), hfin⟩
    · rename_i ho hb
      cases hs
      exact ⟨fun _ => hrun (ho ▸ rfl), .inr (.inr (by rw [hb]; trivial)), hfin⟩
    · cases hs
  | append tid l =>
    simp only [step] at hs
    split at hs
    · rename_i hpc
      cases hs
      exact ⟨hrun, hbegun, (append_raises hfin hpc).1⟩
    · cases hs
  | front tid =>
    obtain ⟨ho, hr, hb, -⟩ := frontStep_frame hs
    refine ⟨fun h => hr.trans (hrun (ho ▸ h)), ?_, (frontStep_lowers hfin hs).1⟩
    rcases hb with hb | hb
    · rw [ho, hb]
      exact hbegun
    · rw [ho, hb]
      exact hbegun.imp_right fun h => h.imp_right notified_begun
  | back now =>
    obtain ⟨ho, hr, hf, -, -⟩ := backStep_frame hs
    exact ⟨fun h => hr.trans (hrun (ho ▸ h)), .inr (.inr (backStep_begun hs)), hf ▸ hfin⟩
  | timeout =>
    simp only [step] at hs
    split at hs
    · cases hs
      exact ⟨hrun, .inr (.inr trivial), hfin⟩
    · cases hs

/-- A step of a thread in `append` lowers the work, a new call raises it. -/
theorem append_step_work [NeZero n] {a : LogLabel n} (hf : (AppendPc.work ∘ s.front).HasFiniteSupport)
    (ha : a.tid?.isSome) (hs : s.step a = some s') :
    s'.owner = s.owner ∧ s'.back.held = s.back.held ∧ s'.work < s.work + if a.isAppend then 15 else 0 := by
  cases a with
  | append tid l =>
    simp only [step] at hs
    split at hs
    · rename_i hpc
      cases hs
      refine ⟨rfl, rfl, ?_⟩
      rw [(append_raises hf hpc).2]
      exact Nat.lt_succ_self _
    · cases hs
  | front tid =>
    obtain ⟨ho, -, hb, -⟩ := frontStep_frame hs
    refine ⟨ho, ?_, (frontStep_lowers hf hs).2⟩
    rcases hb with hb | hb
    · rw [hb]
    · rw [hb, BackPc.notified_held]
  | _ => cases ha

/-- After `stop` was called each step lowers the work, but for a new call of `append`. -/
theorem step_work [NeZero n] {a : LogLabel n} (h : s.Returning) (ho : s.owner.inStop = true) (hs : s.step a = some s') :
    s'.owner.inStop = true ∧ s'.work < s.work + if a.isAppend then 15 else 0 := by
  cases a with
  | start | stop =>
    simp only [step, Option.ite_none_right_eq_some] at hs
    rw [hs.1] at ho
    cases ho
  | owner =>
    simp only [step, ownerStep] at hs
    split at hs
    · cases hs
    · cases hs
    · rename_i howner _ _
      rw [howner] at ho
      cases ho
    · rename_i howner
      cases hs
      have hnotified := s.back.work_notified s.frontBuffers.length s.backBuffers.length
      refine ⟨rfl, ?_⟩
      simp only [work, howner, LogOwnerPc.work, LogLabel.isAppend, Bool.false_eq_true, if_false]
      omega
    · rename_i howner hback
      cases hs
      refine ⟨rfl, ?_⟩
      simp only [work, howner, LogOwnerPc.work, LogLabel.isAppend, Bool.false_eq_true, if_false]
      omega
    · cases hs
  | append tid l | front tid =>
    obtain ⟨howner, -, hlt⟩ := append_step_work h.finite rfl hs
    exact ⟨howner ▸ ho, hlt⟩
  | back now =>
    obtain ⟨howner, -, hf, -, -⟩ := backStep_frame hs
    have hlt := backStep_work (h.running ho) hs
    refine ⟨howner ▸ ho, ?_⟩
    simp only [work, howner, hf, LogLabel.isAppend, Bool.false_eq_true, if_false]
    omega
  | timeout =>
    simp only [step] at hs
    split at hs
    · rename_i hpc
      cases hs
      refine ⟨ho, ?_⟩
      simp only [work, setBack, hpc, BackPc.work, LogLabel.isAppend, Bool.false_eq_true, if_false]
      omega
    · cases hs

/-- Where only new calls of `append` are possible, `stop` has returned. -/
theorem stopped_of_rest [NeZero n] (h : s.Locks) (hret : s.Returning) (ho : s.owner.inStop = true)
    (hrest : ∀ a, a.isAppend = false → s.step a = none) :
    s.owner = .stopped ∧ s.back = .exited ∧ ∀ tid, s.front tid = .idle := by
  have hrun := hret.running ho
  have hbegun : s.back.Begun := by
    rcases hret.begun with h | h | h
    · rw [h] at ho; cases ho
    · rw [h] at ho; cases ho
    · exact h
  have hback : s.backStep "" = none := hrest (.back "") rfl
  have hsleep : s.back ≠ .asleep := fun hpc => by simpa [step, hpc] using hrest .timeout rfl
  have hwaits : s.back ≠ .exited → ∃ l, s.back.wants = some l ∧ s.mutex l ≠ none := by
    intro hexit
    cases hw : s.back.wants with
    | none =>
      have hgoes : (s.backStep "").isSome := backStep_goes h hrun hbegun hsleep hexit hw
      simp [hback] at hgoes
    | some l =>
      refine ⟨l, rfl, fun hl => ?_⟩
      have hgoes : (s.backStep "").isSome := (backStep_wants hw).2 hl
      simp [hback] at hgoes
  obtain ⟨hidle, hfree⟩ := idle_of_rest h
    (fun hheld => hwaits fun hpc => hheld (by rw [hpc]; rfl)) fun tid => hrest (.front tid) rfl
  have hexited : s.back = .exited := by
    by_contra hexit
    obtain ⟨l, hl, hn⟩ := hwaits hexit
    exact hn (hfree l hl)
  have howner := hrest .owner rfl
  refine ⟨?_, hexited, hidle⟩
  cases hpc : s.owner with
  | stopped => rfl
  | notify => simp [step, ownerStep, hpc] at howner
  | join => simp [step, ownerStep, hpc, hexited] at howner
  | _ => simp [hpc, LogOwnerPc.inStop] at ho

end AsyncState

namespace AsyncLogging

open AsyncState

variable [NeZero n] {s : AsyncState n}

theorem returning (h : (AsyncLogging n).Reachable s) : s.Returning :=
  h.inv (I := AsyncState.Returning) (fun _ h0 => h0 ▸ create_returning) fun _ _ _ hi hs => step_returning hi hs

/-- While the back end holds no mutex (in all its writing, its flushes and its
sleep) the calls of `append` end by their own steps, boundedly many. -/
theorem appends_pass (h : (AsyncLogging n).Reachable s) (hback : ∀ l, s.mutex l ≠ some .back) :
    ∃ bound, ∀ as t, (∀ a ∈ as, a.tid?.isSome) → (AsyncLogging n).run s as = some t →
      as.length ≤ bound + 15 * as.countP LogLabel.isAppend ∧
        ((∀ tid, (AsyncLogging n).step t (.front tid) = none) → ∀ tid, t.front tid = .idle) := by
  have hvariant : (AsyncLogging n).Variant (fun a => a.tid?.isSome)
      (fun s => (AsyncLogging n).Reachable s ∧ s.back.held = []) 15 LogLabel.isAppend AsyncState.work := by
    refine ⟨fun s a s' ha hi hs => ⟨hi.1.step hs, ?_⟩, fun s a s' ha hi hs => ?_⟩
    · exact (append_step_work (returning hi.1).finite ha hs).2.1.trans hi.2
    · exact (append_step_work (returning hi.1).finite ha hs).2.2
  have hheld : s.back.held = [] :=
    List.eq_nil_iff_forall_not_mem.2 fun l hl => hback l (((locks h).owned l .back).2 hl)
  refine ⟨s.work, fun as t has hr => ⟨?_, fun hrest => ?_⟩⟩
  · have hlen := hvariant.run_length has ⟨h, hheld⟩ hr
    omega
  · obtain ⟨ht, hnone⟩ := Lts.System.run_inv_of hvariant.keep has hr ⟨h, hheld⟩
    exact (idle_of_rest (locks ht) (fun hne => absurd hnone hne) hrest).1

/-- A call comes while the back end is about to write. -/
theorem appends_pass_write : ∃ s, (AsyncLogging 1).run .create ([.start] ++ List.replicate 4 (.back "now") ++ [.timeout] ++
      List.replicate 9 (.back "now") ++ [.append 0 ⟨fun _ => 0, 1, by decide⟩]) = some s ∧
    (match s.back with | .write 0 => True | _ => False) ∧
    ∃ bound, ∀ as t, (∀ a ∈ as, a.tid?.isSome) → (AsyncLogging 1).run s as = some t →
      as.length ≤ bound + 15 * as.countP LogLabel.isAppend ∧
        ((∀ tid, (AsyncLogging 1).step t (.front tid) = none) → ∀ tid, t.front tid = .idle) := by
  have hr : (AsyncLogging 1).run .create ([.start] ++ List.replicate 4 (.back "now") ++ [.timeout] ++
      List.replicate 9 (.back "now") ++ [.append 0 ⟨fun _ => 0, 1, by decide⟩]) = some _ := rfl
  have hs := Lts.System.Reachable.run (.init rfl) hr
  refine ⟨_, hr, trivial, appends_pass hs fun l hl => ?_⟩
  have hheld : l ∈ ([] : List (LogLock 1)) := ((locks hs).owned l .back).1 hl
  exact absurd hheld List.not_mem_nil

/-- Once `stop` has cleared `running_`, no schedule goes on for ever: its steps are
bounded but for the calls of `append` that still come, and where it ends `stop`
has returned, the back end is gone and no thread is in `append`. -/
theorem stop_returns (h : (AsyncLogging n).Reachable s) (ho : s.owner = .notify) :
    ∃ bound, ∀ as t, (AsyncLogging n).run s as = some t →
      as.length ≤ bound + 15 * as.countP LogLabel.isAppend ∧
        ((∀ a, a.isAppend = false → (AsyncLogging n).step t a = none) →
          t.owner = .stopped ∧ t.back = .exited ∧ ∀ tid, t.front tid = .idle) := by
  have hvariant : (AsyncLogging n).Variant (fun _ => True)
      (fun s => (AsyncLogging n).Reachable s ∧ s.owner.inStop = true) 15 LogLabel.isAppend AsyncState.work :=
    ⟨fun s a s' _ hi hs => ⟨hi.1.step hs, (step_work (returning hi.1) hi.2 hs).1⟩,
      fun s a s' _ hi hs => (step_work (returning hi.1) hi.2 hs).2⟩
  have hstop : s.owner.inStop = true := by rw [ho]; rfl
  refine ⟨s.work, fun as t hr => ⟨?_, fun hrest => ?_⟩⟩
  · have hlen := hvariant.run_length (fun _ _ => trivial) ⟨h, hstop⟩ hr
    omega
  · obtain ⟨ht, hstop'⟩ := Lts.System.run_inv_of hvariant.keep (fun _ _ => trivial) hr ⟨h, hstop⟩
    exact stopped_of_rest (locks ht) (returning ht) hstop' hrest

/-- `stop` comes while thread 0 is in `append`. -/
theorem stop_returns_append : ∃ s, (AsyncLogging 1).run .create
      [.start, .back "now", .owner, .append 0 ⟨fun _ => 0, 1, by decide⟩, .front 0, .stop] = some s ∧
    ∃ bound, ∀ as t, (AsyncLogging 1).run s as = some t →
      as.length ≤ bound + 15 * as.countP LogLabel.isAppend ∧
        ((∀ a, a.isAppend = false → (AsyncLogging 1).step t a = none) →
          t.owner = .stopped ∧ t.back = .exited ∧ ∀ tid, t.front tid = .idle) := by
  have hr : (AsyncLogging 1).run .create
      [.start, .back "now", .owner, .append 0 ⟨fun _ => 0, 1, by decide⟩, .front 0, .stop] = some _ := rfl
  exact ⟨_, hr, stop_returns (Lts.System.Reachable.run (.init rfl) hr) rfl⟩

end AsyncLogging

end Ycnt

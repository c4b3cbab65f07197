import Ycnt.Base.AsyncLogging.Order
/-!
# What a round of the back end writes

However long a thread waits with its buffer half full, the next round takes it:
`Caught` follows the bytes that were appended before a round through the buckets,
`frontBuffers_` and `backBuffers_`, while other threads go on appending. Where the
round comes to its flush they are written, unless their buffers were dropped.
-/

namespace Ycnt

open Function

variable {n : Nat}

/-- Bytes `old` of each bucket are among those appended; of a bucket that the running
round has passed they have been handed over, and once it has taken over
`frontBuffers_` they are in the buffers `taken` over up to then. -/
structure Caught (old : Fin n → List UInt8) (back : BackPc n) (appended : Fin n → List Line)
    (handed taken : List (LogBuffer n)) : Prop where
  kept : ∀ b, old b <+: bytesOf (appended b)
  gathered : ∀ b, ¬ back.harvests b → old b <+: bytesOf (linesOf b handed)
  swapped : ¬ back.swaps → ∀ b, old b <+: bytesOf (linesOf b taken)

namespace Caught

variable {old : Fin n → List UInt8} {back pc : BackPc n} {appended appended' : Fin n → List Line}
  {handed taken : List (LogBuffer n)} {b : Fin n}

theorem move (h : Caught old back appended handed taken) (hh : ∀ b, back.harvests b → pc.harvests b)
    (hw : back.swaps → pc.swaps) : Caught old pc appended handed taken :=
  ⟨h.kept, fun b hb => h.gathered b (mt (hh b) hb), fun hs => h.swapped (mt hw hs)⟩

theorem grow (h : Caught old back appended handed taken) (happ : ∀ b, bytesOf (appended b) <+: bytesOf (appended' b))
    (bufs : List (LogBuffer n)) : Caught old back appended' (handed ++ bufs) taken := by
  refine ⟨fun b => (h.kept b).trans (happ b), fun b hb => (h.gathered b hb).trans ?_, h.swapped⟩
  rw [linesOf_append, bytesOf_append]
  exact List.prefix_append _ _

/-- The back end passes bucket `b`, all of whose bytes are handed over. -/
theorem pass (h : Caught old back appended handed taken) (hb : bytesOf (appended b) = bytesOf (linesOf b handed))
    (hh : ∀ b', b' ≠ b → back.harvests b' → pc.harvests b') (hw : pc.swaps) : Caught old pc appended handed taken := by
  refine ⟨h.kept, fun b' hb' => ?_, fun hs => absurd hw hs⟩
  by_cases hbb : b' = b
  · rw [hbb, ← hb]
    exact h.kept b
  · exact h.gathered b' (mt (hh b' hbb) hb')

/-- The back end takes over all that was handed over. -/
theorem swap (h : Caught old back appended handed taken) (hh : ∀ b, ¬ back.harvests b) :
    Caught old pc appended handed handed :=
  ⟨h.kept, fun b _ => h.gathered b (hh b), fun _ b => h.gathered b (hh b)⟩

end Caught

namespace AsyncState

variable {s s' : AsyncState n} {old : Fin n → List UInt8}

/-- The buffers that some round has taken over. -/
def takenOver (s : AsyncState n) : List (LogBuffer n) := s.retired ++ s.unwritten ++ s.dropping

def caught (old : Fin n → List UInt8) (s : AsyncState n) : Prop := Caught old s.back s.appended s.handed s.takenOver

/-- What is not in `frontBuffers_` has been taken over. -/
theorem takenOver_eq (h : s.Conserved) (h' : s'.Conserved) (hh : s'.handed = s.handed)
    (hf : s'.frontBuffers = s.frontBuffers) : s'.takenOver = s.takenOver := by
  have hq := h.queue
  have hq' := h'.queue
  rw [hh, hf] at hq'
  exact List.append_cancel_right (hq'.symm.trans hq)

theorem dropBack_front (s : AsyncState n) (now : String) : (s.dropBack now).frontBuffers = s.frontBuffers := by
  unfold dropBack
  split <;> rfl

theorem bytesOf_grows (appended : Fin n → List Line) (b : Fin n) (l : Line) (b' : Fin n) :
    bytesOf (appended b') <+: bytesOf (update appended b (appended b ++ [l]) b') := by
  by_cases hbb : b' = b
  · subst hbb
    rw [update_self, bytesOf_append]
    exact List.prefix_append _ _
  · rw [update_of_ne hbb]

theorem frontStep_caught {tid : Nat} (h : s.caught old) (hs : s.frontStep tid = some s') : s'.caught old := by
  cases frontStep_inv hs with
  | lock | unlock | move | take | tryPop => exact h
  | @store b l buf hpc hbuf =>
    have hgrow := h.grow (bytesOf_grows s.appended b l) []
    rwa [List.append_nil] at hgrow
  | @refill b l o hpc =>
    have hgrow := h.grow (bytesOf_grows s.appended b l) []
    rwa [List.append_nil] at hgrow
  | @handOver b l buf hpc hbuf =>
    exact (h.grow (fun _ => List.prefix_refl _) [buf]).move (fun b hb => (s.back.notified_harvests b).2 hb)
      s.back.notified_swaps.2

theorem backStep_caught {now : String} (hc : s.Conserved) (hc' : s'.Conserved) (h : s.caught old)
    (hs : s.backStep now = some s') : s'.caught old := by
  unfold caught at h ⊢
  cases hpc : s.back with
  | notStarted | asleep | exited => simp [backStep, hpc] at hs
  | begin =>
    rw [hpc] at h
    simp only [backStep, hpc, Option.ite_none_right_eq_some, Option.some.injEq] at hs
    obtain ⟨-, rfl⟩ := hs
    exact h.move (fun _ hb => hb) id
  | loopTest =>
    rw [hpc] at h
    simp only [backStep, hpc] at hs
    split at hs
    · split at hs <;> cases hs
      exact h.move (fun _ hb => hb.elim) fun hw => hw.elim
    · cases hs
      exact h.move (fun _ hb => hb) id
  | lockWait | woken | lockSwap | lockFront b | lockPool b | lockSize buf | lockPush buf =>
    rw [hpc] at h
    simp only [backStep, hpc, Option.map_eq_some_iff, lock_eq_some] at hs
    obtain ⟨_, ⟨-, rfl⟩, rfl⟩ := hs
    exact h.move (fun _ hb => hb) id
  | emptyTest =>
    rw [hpc] at h
    simp only [backStep, hpc, Option.some.injEq] at hs
    subst hs
    simp only [setBack]
    split
    · exact h.move (fun _ hb => hb) id
    · exact h.move (fun b _ => Nat.zero_le b) id
  | waited =>
    rw [hpc] at h
    simp only [backStep, hpc, Option.some.injEq] at hs
    subst hs
    exact h.move (fun b _ => Nat.zero_le b) id
  | harvest i =>
    rw [hpc] at h
    simp only [backStep, hpc] at hs
    split at hs
    · simp only [Option.map_eq_some_iff, lock_eq_some] at hs
      obtain ⟨_, ⟨-, rfl⟩, rfl⟩ := hs
      exact h.move (fun _ hb => hb) id
    · rename_i hi
      cases hs
      exact h.move (fun b hb => hi (Nat.lt_of_le_of_lt hb b.isLt)) id
  | lengthTest b =>
    rw [hpc] at h
    simp only [backStep, hpc, Option.map_eq_some_iff] at hs
    obtain ⟨buf, hbuf, rfl⟩ := hs
    simp only [setBack]
    split
    · exact h.move (fun _ hb => hb) id
    · rename_i hl
      -- A buffer without a byte is left where it is.
      have hempty : bytesOf (buf.linesOf b) = [] :=
        (hc.stored.node_whole b buf hbuf).length_eq_zero.1 (Nat.eq_zero_of_not_pos hl) b
      refine h.pass (b := b) ?_ (fun b' hb' => (lt_iff_le_of_ne hb').2) trivial
      rw [hc.stored.lines b, hbuf, Option.toList_some, linesOf_singleton, bytesOf_append, hempty, List.append_nil]
  | handOver b =>
    rw [hpc] at h
    simp only [backStep, hpc, Option.map_eq_some_iff] at hs
    obtain ⟨buf, -, rfl⟩ := hs
    have hlines : s.appended b = linesOf b (s.handed ++ [buf]) ++ linesOf b (update s.node b none b).toList :=
      hc'.stored.lines b
    rw [update_self, Option.toList_none, linesOf_nil, List.append_nil] at hlines
    exact (h.grow (fun _ => List.prefix_refl _) [buf]).pass (congrArg bytesOf hlines)
      (fun b' hb' => (lt_iff_le_of_ne hb').2) trivial
  | unlockNode b =>
    rw [hpc] at h
    simp only [backStep, hpc, Option.some.injEq] at hs
    subst hs
    exact h.move (fun _ hb => Nat.succ_le_of_lt hb) id
  | swap =>
    rw [hpc] at h
    simp only [backStep, hpc, Option.some.injEq] at hs
    have hr := hc.round
    rw [hpc] at hr
    have htaken : s'.takenOver = s.handed := by
      have hq := hc'.queue
      have hfront : s'.frontBuffers = [] := by rw [← hs, ← hr.1]
      rw [hfront, List.append_nil] at hq
      rw [takenOver, ← hq, ← hs]
      rfl
    rw [htaken]
    subst hs
    exact h.swap fun _ hb => hb
  | dropTest =>
    rw [hpc] at h
    simp only [backStep, hpc, Option.some.injEq] at hs
    have hdrop : (s.dropBack now).handed = s.handed ∧ (s.dropBack now).appended = s.appended := by
      unfold dropBack
      split <;> exact ⟨rfl, rfl⟩
    subst hs
    rw [takenOver_eq hc hc' hdrop.1 (s.dropBack_front now)]
    simp only [setBack, hdrop]
    exact h.move (fun _ hb => hb) id
  | write k | recycle =>
    rw [hpc] at h
    simp only [backStep, hpc] at hs
    split at hs
    all_goals
      cases hs
      rw [takenOver_eq hc hc' rfl rfl]
      exact h.move (fun _ hb => hb) id
  | sizeTest buf =>
    rw [hpc] at h
    simp only [backStep, hpc, Option.some.injEq] at hs
    subst hs
    simp only [setBack]
    split <;> exact h.move (fun _ hb => hb) id
  | tryPop b | refill b o | push buf | flush | finalFlush =>
    rw [hpc] at h
    simp only [backStep, hpc, Option.some.injEq] at hs
    subst hs
    exact h.move (fun _ hb => hb) id

theorem step_caught [NeZero n] {a : LogLabel n} (hb : s.owner = .constructed → s.back = .notStarted) (hc : s.Conserved)
    (hc' : s'.Conserved) (h : s.caught old) (hs : s.step a = some s') : s'.caught old := by
  cases a with
  | start =>
    simp only [step, Option.ite_none_right_eq_some, Option.some.injEq] at hs
    obtain ⟨ho, rfl⟩ := hs
    unfold caught at h
    rw [hb ho] at h
    exact h.move (fun _ hb => hb) id
  | stop =>
    simp only [step, Option.ite_none_right_eq_some, Option.some.injEq] at hs
    obtain ⟨-, rfl⟩ := hs
    exact h
  | owner =>
    simp only [step, ownerStep] at hs
    split at hs
    all_goals cases hs
    · exact h
    · exact h.move (fun b hb => (s.back.notified_harvests b).2 hb) s.back.notified_swaps.2
    · exact h
  | append tid l =>
    simp only [step] at hs
    split at hs
    · cases hs
      exact h
    · cases hs
  | front tid => exact frontStep_caught h hs
  | back now => exact backStep_caught hc hc' h hs
  | timeout =>
    simp only [step] at hs
    split at hs
    · rename_i hpc
      cases hs
      unfold caught at h
      rw [hpc] at h
      exact h.move (fun _ hb => hb) id
    · cases hs

end AsyncState

namespace AsyncLogging

open AsyncState

variable [NeZero n] {s t : AsyncState n} {as : List (LogLabel n)}

/-- The bytes appended before the back end harvests the first bucket are retired
when that round comes to its flush, and written unless buffers were dropped: for
each bucket they are the first that the file has of it. -/
theorem round_writes (h : (AsyncLogging n).Reachable s) (hs : ∀ b, s.back.harvests b)
    (hr : (AsyncLogging n).run s as = some t) (ht : t.back = .flush) :
    t.output.filterMap FileAppend.buffer? = t.written.map (·.buffer.contents) ∧
      (∀ b, bytesOf (s.appended b) <+: bytesOf (linesOf b t.retired)) ∧
      ((∀ now count, .notice now count ∉ t.output) →
        ∀ b, bytesOf (s.appended b) <+: bytesOf (linesOf b t.written)) := by
  have hswaps : s.back.swaps := by
    have h0 := hs 0
    cases hpc : s.back <;> rw [hpc] at h0 <;> trivial
  have hstart : s.caught fun b => bytesOf (s.appended b) :=
    ⟨fun _ => List.prefix_refl _, fun b hb => absurd (hs b) hb, fun hw => absurd hswaps hw⟩
  have hinv := Lts.System.run_inv_of (M := AsyncLogging n) (Q := fun _ => True)
    (I := fun u => (AsyncLogging n).Reachable u ∧ u.caught fun b => bytesOf (s.appended b))
    (fun u a u' _ hu hstep => ⟨hu.1.step hstep,
      step_caught (unstarted hu.1) (conserved hu.1) (conserved (hu.1.step hstep)) hu.2 hstep⟩)
    (fun _ _ => trivial) hr ⟨h, hstart⟩
  obtain ⟨hreach, hcaught⟩ := hinv
  have hround := (conserved hreach).round
  rw [ht] at hround
  have hretired : ∀ b, bytesOf (s.appended b) <+: bytesOf (linesOf b t.retired) := fun b => by
    have hb := hcaught.swapped (by rw [ht]; exact id) b
    rwa [takenOver, hround.2.1, hround.2.2, List.append_nil, List.append_nil] at hb
  refine ⟨(conserved hreach).filed.buffers, hretired, fun hn b => ?_⟩
  rw [written_of_no_notice hreach hn]
  exact hretired b

def isFlush : BackPc n → Bool
  | .flush => true
  | _ => false

omit [NeZero n] in
theorem eq_flush {pc : BackPc n} (h : isFlush pc) : pc = .flush := by
  cases pc <;> first | rfl | cases h

omit [NeZero n] in
theorem harvests_lockWait {pc : BackPc n} (h : isLockWait pc) (b : Fin n) : pc.harvests b := by
  cases pc <;> trivial

/-- Thread 0 has appended a byte before the back end's first round. -/
theorem round_writes_byte : ∃ s t, (AsyncLogging 1).run .create (oneByte ++ [.back "now"]) = some s ∧
    (AsyncLogging 1).run s ([.back "now", .back "now", .timeout] ++ List.replicate 22 (.back "now")) = some t ∧
    bytesOf (s.appended 0) = [32] ∧ ∀ b, bytesOf (s.appended b) <+: bytesOf (linesOf b t.written) := by
  have h : (((AsyncLogging 1).run .create (oneByte ++ [.back "now"])).bind fun s =>
      ((AsyncLogging 1).run s ([.back "now", .back "now", .timeout] ++ List.replicate 22 (.back "now"))).map fun t =>
        (isLockWait s.back, isFlush t.back, t.output.all (·.buffer?.isSome), bytesOf (s.appended 0))) =
      some (true, true, true, [32]) := by decide +kernel
  obtain ⟨s, hs, h⟩ := Option.bind_eq_some_iff.1 h
  obtain ⟨t, ht, hv⟩ := Option.map_eq_some_iff.1 h
  simp only [Prod.mk.injEq] at hv
  obtain ⟨hb, hf, hout, happ⟩ := hv
  have hreach := Lts.System.Reachable.run (.init rfl) hs
  exact ⟨s, t, hs, ht, happ,
    (round_writes hreach (harvests_lockWait hb) ht (eq_flush hf)).2.2 (no_notice hout)⟩

end AsyncLogging

end Ycnt

import Ycnt.Base.AsyncLogging.Conserve
/-!
# Stopping the asynchronous logger

`stop` clears `running_`, which `threadFunc` tests once a round, and joins it. So
what the running round does not take over any more stays in the logger: `Drains`
says when a round takes everything, and no step after `stop` changes it.
-/

namespace Ycnt

open Function

variable {n : Nat}

theorem lt_iff_le_of_ne {b b' : Fin n} (h : b' ≠ b) : b < b' ↔ b ≤ b' := by
  have := Fin.val_ne_of_ne h
  simp only [Fin.lt_def, Fin.le_def]
  omega

/-- The loop over `fixedBuffers_` of the running round has still to take the buffer of bucket `b`. -/
def BackPc.harvests (b : Fin n) : BackPc n → Prop
  | .lockWait | .emptyTest | .asleep | .woken | .waited => True
  | .harvest i => i ≤ b
  | .lengthTest c | .lockFront c | .handOver c => c ≤ b
  | .lockPool c | .tryPop c | .refill c _ | .unlockNode c => c < b
  | _ => False

/-- The running round has still to take over `frontBuffers_`. -/
def BackPc.swaps : BackPc n → Prop
  | .lockWait | .emptyTest | .asleep | .woken | .waited | .harvest _ => True
  | .lengthTest _ | .lockFront _ | .handOver _ | .lockPool _ | .tryPop _ | .refill _ _ | .unlockNode _ => True
  | .lockSwap | .swap => True
  | _ => False

@[simp] theorem BackPc.notified_harvests (b : Fin n) (pc : BackPc n) : pc.notified.harvests b ↔ pc.harvests b := by
  cases pc <;> rfl

@[simp] theorem BackPc.notified_swaps (pc : BackPc n) : pc.notified.swaps ↔ pc.swaps := by
  cases pc <;> rfl

/-- The running round takes over whatever the logger holds. -/
structure Drains (back : BackPc n) (node : Fin n → Option (LogBuffer n)) (frontBuffers : List (LogBuffer n)) : Prop where
  node : ∀ b buf, node b = some buf → 0 < buf.buffer.length → back.harvests b
  front : ∀ buf ∈ frontBuffers, 0 < buf.buffer.length → back.swaps

section

variable {back pc : BackPc n} {node : Fin n → Option (LogBuffer n)} {frontBuffers : List (LogBuffer n)} {b : Fin n}
  {buf : LogBuffer n}

theorem drains_move (hh : ∀ b, pc.harvests b ↔ back.harvests b) (hw : pc.swaps ↔ back.swaps) :
    Drains pc node frontBuffers ↔ Drains back node frontBuffers := by
  constructor
  · rintro ⟨hn, hf⟩
    exact ⟨fun b buf hb hl => (hh b).1 (hn b buf hb hl), fun buf hm hl => hw.1 (hf buf hm hl)⟩
  · rintro ⟨hn, hf⟩
    exact ⟨fun b buf hb hl => (hh b).2 (hn b buf hb hl), fun buf hm hl => hw.2 (hf buf hm hl)⟩

/-- The back end passes bucket `b`, which holds nothing. -/
theorem drains_pass (hn : ∀ buf, node b = some buf → buf.buffer.length = 0)
    (hh : ∀ b', b' ≠ b → (pc.harvests b' ↔ back.harvests b')) (hw : pc.swaps ↔ back.swaps) :
    Drains pc node frontBuffers ↔ Drains back node frontBuffers := by
  have hne : ∀ b' buf, node b' = some buf → 0 < buf.buffer.length → b' ≠ b := by
    rintro b' buf hb hl rfl
    have := hn buf hb
    omega
  constructor
  · rintro ⟨hn, hf⟩
    exact ⟨fun b' buf hb hl => (hh b' (hne b' buf hb hl)).1 (hn b' buf hb hl), fun buf hm hl => hw.1 (hf buf hm hl)⟩
  · rintro ⟨hn, hf⟩
    exact ⟨fun b' buf hb hl => (hh b' (hne b' buf hb hl)).2 (hn b' buf hb hl), fun buf hm hl => hw.2 (hf buf hm hl)⟩

/-- The back end hands over the buffer of bucket `b`. -/
theorem drains_handOver (hb : back.harvests b) (hh : ∀ b', b' ≠ b → (pc.harvests b' ↔ back.harvests b'))
    (hw : pc.swaps) (hw' : back.swaps) :
    Drains pc (update node b none) (frontBuffers ++ [buf]) ↔ Drains back node frontBuffers := by
  constructor
  · rintro ⟨hn, -⟩
    refine ⟨fun b' buf' hb' hl => ?_, fun _ _ _ => hw'⟩
    by_cases hbb : b' = b
    · rw [hbb]
      exact hb
    · exact (hh b' hbb).1 (hn b' buf' (by rw [update_of_ne hbb, hb']) hl)
  · rintro ⟨hn, -⟩
    refine ⟨fun b' buf' hb' hl => ?_, fun _ _ _ => hw⟩
    by_cases hbb : b' = b
    · subst hbb
      simp at hb'
    · rw [update_of_ne hbb] at hb'
      exact (hh b' hbb).2 (hn b' buf' hb' hl)

/-- An empty buffer comes into bucket `b`, which has none. -/
theorem drains_refill (hb : node b = none) (he : buf.Empty) (hh : ∀ b, pc.harvests b ↔ back.harvests b)
    (hw : pc.swaps ↔ back.swaps) :
    Drains pc (update node b (some buf)) frontBuffers ↔ Drains back node frontBuffers := by
  rw [← drains_move hh hw]
  constructor
  · rintro ⟨hn, hf⟩
    refine ⟨fun b' buf' hb' hl => hn b' buf' ?_ hl, hf⟩
    have hbb : b' ≠ b := by
      rintro rfl
      rw [hb] at hb'
      cases hb'
    rw [update_of_ne hbb, hb']
  · rintro ⟨hn, hf⟩
    refine ⟨fun b' buf' hb' hl => ?_, hf⟩
    by_cases hbb : b' = b
    · subst hbb
      obtain rfl : buf = buf' := by simpa using hb'
      have := he.length
      omega
    · rw [update_of_ne hbb] at hb'
      exact hn b' buf' hb' hl

/-- The swap takes over all of `frontBuffers_`, when no bucket is harvested any more. -/
theorem drains_swap (hh : ∀ b, pc.harvests b ↔ back.harvests b) (hw : back.swaps) :
    Drains pc node [] ↔ Drains back node frontBuffers := by
  constructor
  · rintro ⟨hn, -⟩
    exact ⟨fun b buf hb hl => (hh b).1 (hn b buf hb hl), fun _ _ _ => hw⟩
  · rintro ⟨hn, -⟩
    exact ⟨fun b buf hb hl => (hh b).2 (hn b buf hb hl), by simp⟩

end

def LogLabel.isAppend : LogLabel n → Bool
  | .append _ _ => true
  | _ => false

/-- The thread in `append` whose step it is. -/
def LogLabel.tid? : LogLabel n → Option Nat
  | .append tid _ | .front tid => some tid
  | _ => none

namespace AsyncState

variable {s s' : AsyncState n} {now : String}

def drains (s : AsyncState n) : Prop := Drains s.back s.node s.frontBuffers

/-- No step of the back end changes whether its round drains the logger, once `running_` is false. -/
theorem backStep_drains (hrun : s.running = false) (hlocks : s.Locks) (h : s.Conserved)
    (hs : s.backStep now = some s') : s'.drains ↔ s.drains := by
  unfold drains
  cases hpc : s.back with
  | notStarted | asleep | exited => simp [backStep, hpc] at hs
  | begin => simp [backStep, hpc, hrun] at hs
  | loopTest =>
    simp only [backStep, hpc, hrun, Bool.false_eq_true, if_false, Option.some.injEq] at hs
    subst hs
    exact drains_move (fun _ => Iff.rfl) Iff.rfl
  | lockWait | woken | lockSwap | lockFront b | lockPool b | lockSize buf | lockPush buf =>
    simp only [backStep, hpc, Option.map_eq_some_iff, lock_eq_some] at hs
    obtain ⟨_, ⟨-, rfl⟩, rfl⟩ := hs
    exact drains_move (fun _ => Iff.rfl) Iff.rfl
  | emptyTest =>
    simp only [backStep, hpc, Option.some.injEq] at hs
    subst hs
    split
    · exact drains_move (fun _ => Iff.rfl) Iff.rfl
    · exact drains_move (fun b => iff_of_true (Nat.zero_le b) trivial) Iff.rfl
  | waited =>
    simp only [backStep, hpc, Option.some.injEq] at hs
    subst hs
    exact drains_move (fun b => iff_of_true (Nat.zero_le b) trivial) Iff.rfl
  | harvest i =>
    simp only [backStep, hpc] at hs
    split at hs
    · simp only [Option.map_eq_some_iff, lock_eq_some] at hs
      obtain ⟨_, ⟨-, rfl⟩, rfl⟩ := hs
      exact drains_move (fun _ => Iff.rfl) Iff.rfl
    · rename_i hi
      simp only [Option.some.injEq] at hs
      subst hs
      refine drains_move (fun b => iff_of_false not_false ?_) Iff.rfl
      have := b.isLt
      show ¬ i ≤ b
      omega
  | lengthTest b =>
    simp only [backStep, hpc, Option.map_eq_some_iff] at hs
    obtain ⟨buf, hbuf, rfl⟩ := hs
    split
    · exact drains_move (fun _ => Iff.rfl) Iff.rfl
    · rename_i hl
      refine drains_pass (b := b) (fun buf' hb' => ?_) (fun b' hb' => ?_) Iff.rfl
      · obtain rfl : buf = buf' := Option.some.inj (hbuf.symm.trans hb')
        omega
      · exact lt_iff_le_of_ne hb'
  | handOver b =>
    simp only [backStep, hpc, Option.map_eq_some_iff] at hs
    obtain ⟨buf, -, rfl⟩ := hs
    exact drains_handOver (Nat.le_refl b.val) (fun b' hb' => lt_iff_le_of_ne hb') trivial trivial
  | refill b o =>
    simp only [backStep, hpc, Option.some.injEq] at hs
    subst hs
    have hnone : s.node b = none := (hlocks.gaps b).2 ⟨.back, by simp [gap, hpc, BackPc.gap]⟩
    have he : (o.getD .new).Empty := LogBuffer.getD_new_empty fun buf hc => h.pooled.back buf (by rw [hpc]; exact hc)
    exact drains_refill hnone he (fun _ => Iff.rfl) Iff.rfl
  | unlockNode b =>
    simp only [backStep, hpc, Option.some.injEq] at hs
    subst hs
    refine drains_move (fun b' => ?_) Iff.rfl
    exact Nat.succ_le_iff
  | swap =>
    simp only [backStep, hpc, Option.some.injEq] at hs
    subst hs
    have hr := h.round
    rw [hpc] at hr
    show Drains .dropTest s.node s.backBuffers ↔ _
    rw [hr.1]
    exact drains_swap (fun _ => Iff.rfl) trivial
  | dropTest =>
    simp only [backStep, hpc, Option.some.injEq] at hs
    subst hs
    simp only [setBack, dropBack]
    split <;> exact drains_move (fun _ => Iff.rfl) Iff.rfl
  | write k | recycle =>
    simp only [backStep, hpc] at hs
    split at hs
    all_goals
      simp only [Option.some.injEq] at hs
      subst hs
      exact drains_move (fun _ => Iff.rfl) Iff.rfl
  | sizeTest buf =>
    simp only [backStep, hpc, Option.some.injEq] at hs
    subst hs
    split <;> exact drains_move (fun _ => Iff.rfl) Iff.rfl
  | tryPop b | push buf | flush | finalFlush =>
    simp only [backStep, hpc, Option.some.injEq] at hs
    subst hs
    exact drains_move (fun _ => Iff.rfl) Iff.rfl

/-- After `stop` was called, with no thread in `append`. -/
structure Stopping (s : AsyncState n) : Prop where
  running : s.running = false
  owner : s.owner = .notify ∨ s.owner = .join ∨ s.owner = .stopped
  idle : ∀ tid, s.front tid = .idle

theorem step_stopping [NeZero n] {a : LogLabel n} (ha : a.isAppend = false) (hlocks : s.Locks) (hc : s.Conserved)
    (h : s.Stopping) (hs : s.step a = some s') : s'.Stopping ∧ (s'.drains ↔ s.drains) := by
  obtain ⟨hrun, hown, hidle⟩ := h
  cases a with
  | start | stop =>
    simp only [step, Option.ite_none_right_eq_some] at hs
    rcases hown with ho | ho | ho <;> simp [ho] at hs
  | owner =>
    simp only [step, ownerStep] at hs
    split at hs
    · cases hs
    · cases hs
    · rename_i ho _ _
      rcases hown with h | h | h <;> simp [h] at ho
    · simp only [Option.some.injEq] at hs
      subst hs
      refine ⟨⟨hrun, .inr (.inl rfl), hidle⟩, ?_⟩
      exact drains_move (fun b => BackPc.notified_harvests b _) (BackPc.notified_swaps _)
    · simp only [Option.some.injEq] at hs
      subst hs
      exact ⟨⟨hrun, .inr (.inr rfl), hidle⟩, Iff.rfl⟩
    · cases hs
  | append tid l => cases ha
  | front tid => simp [step, frontStep, hidle tid] at hs
  | back now =>
    obtain ⟨ho, hr, hf, -, -⟩ := backStep_frame hs
    exact ⟨⟨hr.trans hrun, ho ▸ hown, hf ▸ hidle⟩, backStep_drains hrun hlocks hc hs⟩
  | timeout =>
    simp only [step] at hs
    split at hs
    · rename_i hpc
      simp only [Option.some.injEq] at hs
      subst hs
      refine ⟨⟨hrun, hown, hidle⟩, ?_⟩
      unfold drains
      rw [hpc]
      exact drains_move (fun _ => Iff.rfl) Iff.rfl
    · cases hs

/-- A step of one thread in `append` leaves the others where they are. -/
theorem step_front [NeZero n] {a : LogLabel n} {u : Nat} (ha : a.tid? ≠ some u) (hs : s.step a = some s') :
    s'.front u = s.front u := by
  cases a with
  | start | stop =>
    simp only [step, Option.ite_none_right_eq_some, Option.some.injEq] at hs
    obtain ⟨-, rfl⟩ := hs
    rfl
  | owner => rw [(ownerStep_frame hs).1]
  | append tid l =>
    have hu : u ≠ tid := fun h => ha (congrArg some h.symm)
    simp only [step] at hs
    split at hs
    · simp only [Option.some.injEq] at hs
      subst hs
      exact update_of_ne hu _ _
    · cases hs
  | front tid =>
    obtain ⟨-, -, -, hf⟩ := frontStep_frame hs
    exact hf u fun h => ha (congrArg some h.symm)
  | back now => rw [(backStep_frame hs).2.2.1]
  | timeout =>
    simp only [step] at hs
    split at hs
    · simp only [Option.some.injEq] at hs
      subst hs
      rfl
    · cases hs

/-- `stop` returns only after the back end has left `threadFunc`. -/
theorem step_stopped [NeZero n] {a : LogLabel n} (h : s.owner = .stopped → s.back = .exited) (hs : s.step a = some s') :
    s'.owner = .stopped → s'.back = .exited := by
  intro ho
  cases a with
  | start | stop =>
    simp only [step, Option.ite_none_right_eq_some, Option.some.injEq] at hs
    obtain ⟨-, rfl⟩ := hs
    cases ho
  | owner =>
    simp only [step, ownerStep] at hs
    split at hs
    · cases hs
    · cases hs
    · cases hs; cases ho
    · cases hs; cases ho
    · rename_i hb
      cases hs
      exact hb
    · cases hs
  | append tid l =>
    simp only [step] at hs
    split at hs
    · simp only [Option.some.injEq] at hs
      subst hs
      exact h ho
    · cases hs
  | front tid =>
    rcases frontStep_frame hs with ⟨ho', -, hb | hb, -⟩
    · rw [hb, h (ho'.symm.trans ho)]
    · rw [hb, h (ho'.symm.trans ho)]
      rfl
  | back now =>
    have hb := h ((backStep_frame hs).1.symm.trans ho)
    simp [step, backStep, hb] at hs
  | timeout =>
    simp only [step] at hs
    split at hs
    · rename_i hpc
      simp only [Option.some.injEq] at hs
      subst hs
      simp [h ho] at hpc
    · cases hs

end AsyncState

/-! ## What is left when the back end has exited -/

/-- The bytes of some lines, one after the other. -/
def bytesOf (ls : List Line) : List UInt8 := ls.flatMap Line.bytes

theorem bytesOf_append (ls ls' : List Line) : bytesOf (ls ++ ls') = bytesOf ls ++ bytesOf ls' :=
  List.flatMap_append

theorem bytesOf_linesOf_eq_nil {b : Fin n} {bufs : List (LogBuffer n)} :
    bytesOf (linesOf b bufs) = [] ↔ ∀ buf ∈ bufs, bytesOf (buf.linesOf b) = [] := by
  simp only [bytesOf, linesOf, List.flatMap_eq_nil_iff, List.mem_flatMap, forall_exists_index, and_imp]
  constructor
  · intro h buf hb l hl
    exact h l buf hb hl
  · intro h l buf hb hl
    exact h buf hb l hl

/-- A buffer holds a byte exactly when it holds one of some bucket. -/
theorem LogBuffer.Whole.length_eq_zero {buf : LogBuffer n} (h : buf.Whole) :
    buf.buffer.length = 0 ↔ ∀ b, bytesOf (buf.linesOf b) = [] := by
  rw [← FixedBuffer.contents_length, List.length_eq_zero_iff, h]
  simp only [bytesOf, LogBuffer.linesOf, List.flatMap_eq_nil_iff, List.mem_map, List.mem_filter, decide_eq_true_eq]
  constructor
  · rintro h' b _ ⟨p, ⟨hp, -⟩, rfl⟩
    exact h' p hp
  · intro h' p hp
    exact h' p.1 _ ⟨p, ⟨hp, rfl⟩, rfl⟩

namespace AsyncLogging

open AsyncState

variable [NeZero n] {s t : AsyncState n}

theorem stopped_exited (h : (AsyncLogging n).Reachable s) : s.owner = .stopped → s.back = .exited :=
  h.inv (I := fun s => s.owner = .stopped → s.back = .exited) (fun _ h0 ho => by rw [h0] at ho; cases ho)
    fun _ _ _ hi hs => step_stopped hi hs

/-- Without a notice everything retired was written. -/
theorem written_eq (h : (AsyncLogging n).Reachable s) (hd : s.dropping = [])
    (hn : ∀ now count, .notice now count ∉ s.output) : s.written = s.retired := by
  have hf := (conserved h).filed
  have hsum : (s.output.map FileAppend.dropped).sum = 0 := by
    rw [List.sum_eq_zero_iff_forall_eq_nat]
    intro k hk
    obtain ⟨c, hc, rfl⟩ := List.mem_map.1 hk
    cases c with
    | notice now count => exact absurd hc (hn now count)
    | buffer bytes => rfl
  apply hf.order.eq_of_length
  have := hf.count
  rw [hd, hsum] at this
  simpa using this.symm

theorem exited_iff_drains (h : (AsyncLogging n).Reachable s) (hb : s.back = .exited)
    (hn : ∀ now count, .notice now count ∉ s.output) :
    (∀ b, bytesOf (linesOf b s.written) = bytesOf (s.appended b)) ↔ s.drains := by
  have hc := conserved h
  have hr := hc.round
  rw [hb] at hr
  obtain ⟨-, hu, hd⟩ := hr
  have happ : ∀ b, bytesOf (s.appended b) = bytesOf (linesOf b s.written) ++
      (bytesOf (linesOf b s.frontBuffers) ++ bytesOf (linesOf b (s.node b).toList)) := by
    intro b
    rw [hc.stored.lines b, hc.queue, hu, hd, written_eq h hd hn]
    simp only [List.append_nil, linesOf_append, bytesOf_append, List.append_assoc]
  have hleft : (∀ b, bytesOf (linesOf b s.written) = bytesOf (s.appended b)) ↔
      ∀ b, bytesOf (linesOf b s.frontBuffers) = [] ∧ bytesOf (linesOf b (s.node b).toList) = [] := by
    apply forall_congr'
    intro b
    rw [happ b, List.self_eq_append_right, List.append_eq_nil_iff]
  rw [hleft]
  have hfront : ∀ buf ∈ s.frontBuffers, buf.Whole := fun buf hm =>
    hc.stored.handed_whole buf (by rw [hc.queue]; exact List.mem_append_right _ hm)
  constructor
  · intro hnil
    refine ⟨fun b buf hbuf hl => ?_, fun buf hm hl => ?_⟩
    · have h0 : buf.buffer.length = 0 := by
        rw [(hc.stored.node_whole b buf hbuf).length_eq_zero]
        intro b'
        by_cases hbb : b' = b
        · subst hbb
          exact bytesOf_linesOf_eq_nil.1 (hnil b').2 buf (by simp [hbuf])
        · rw [hc.stored.linesOf_of_ne hbuf hbb]
          rfl
      omega
    · have h0 : buf.buffer.length = 0 :=
        (hfront buf hm).length_eq_zero.2 fun b => bytesOf_linesOf_eq_nil.1 (hnil b).1 buf hm
      omega
  · rintro ⟨hnode, hfr⟩ b
    rw [hb] at hnode hfr
    constructor
    · refine bytesOf_linesOf_eq_nil.2 fun buf hm => (hfront buf hm).length_eq_zero.1 ?_ b
      exact Nat.eq_zero_of_not_pos (hfr buf hm)
    · refine bytesOf_linesOf_eq_nil.2 fun buf hm => ?_
      have hbuf : s.node b = some buf := by simpa using hm
      exact (hc.stored.node_whole b buf hbuf).length_eq_zero.1 (Nat.eq_zero_of_not_pos (hnode b buf hbuf)) b

/-- `s` is the logger when `stop` is called and `t` when it has returned, with all
`append`s over and no buffers dropped: then every byte appended was passed to
`LogFile::append` exactly if the round running in `s` takes over all that `s` holds. -/
theorem stop_drains_iff (hs : (AsyncLogging n).Reachable s) (hidle : ∀ tid, s.front tid = .idle)
    {as : List (LogLabel n)} (happ : ∀ a ∈ as, a.isAppend = false) (hr : (AsyncLogging n).run s (.stop :: as) = some t)
    (hret : t.owner = .stopped) (hn : ∀ now count, .notice now count ∉ t.output) :
    t.output.filterMap FileAppend.buffer? = t.written.map (·.buffer.contents) ∧ (∀ buf ∈ t.written, buf.Whole) ∧
      ((∀ b, bytesOf (linesOf b t.written) = bytesOf (t.taken b)) ↔ s.drains) := by
  have ht : (AsyncLogging n).Reachable t := hs.run hr
  have hc := conserved ht
  obtain ⟨u, h1, hu⟩ := Lts.System.run_cons.1 hr
  have hru := hs.step h1
  obtain ⟨-, hstop⟩ : s.owner = .started ∧ { s with running := false, owner := .notify } = u := by
    simpa [AsyncLogging, step] using h1
  -- The invariant carried over the steps after `stop`.
  have hinv : t.Stopping ∧ (t.drains ↔ s.drains) := by
    refine (Lts.System.run_inv_of (I := fun v => (AsyncLogging n).Reachable v ∧ v.Stopping ∧ (v.drains ↔ s.drains))
      (Q := fun a => a.isAppend = false) (fun v a v' ha hv hv' => ?_) happ hu ⟨hru, ?_, ?_⟩).2
    · obtain ⟨hreach, hst, hdr⟩ := hv
      obtain ⟨hst', hdr'⟩ := step_stopping ha (locks hreach) (conserved hreach) hst hv'
      exact ⟨hreach.step hv', hst', hdr'.trans hdr⟩
    · rw [← hstop]
      exact ⟨rfl, .inl rfl, hidle⟩
    · rw [← hstop]
      exact Iff.rfl
  refine ⟨hc.filed.buffers, fun buf hm => hc.stored.handed_whole buf ?_, ?_⟩
  · rw [hc.queue]
    simp [hc.filed.order.subset hm]
  · have htaken : ∀ b, t.taken b = t.appended b := fun b =>
      (taken ht).free b fun tid l => by rw [hinv.1.idle tid]; simp [AppendPc.underway]
    rw [← hinv.2, ← exited_iff_drains ht (stopped_exited ht hret) hn]
    apply forall_congr'
    intro b
    rw [htaken b]

/-! ## Stopping with one line in a bucket -/

/-- Thread 0 appends one byte to a started logger, whose back end is before its first round. -/
def oneByte : List (LogLabel 1) :=
  [.start, .back "now", .owner, .append 0 (blanks 1 (by decide)), .front 0, .front 0, .front 0]

def isIdle : AppendPc n → Bool
  | .idle => true
  | _ => false

omit [NeZero n] in
theorem eq_idle {pc : AppendPc n} (h : isIdle pc) : pc = .idle := by
  cases pc <;> first | rfl | cases h

def isLockWait : BackPc n → Bool
  | .lockWait => true
  | _ => false

omit [NeZero n] in
/-- A round that has just begun drains the logger. -/
theorem drains_lockWait {s : AsyncState n} (h : isLockWait s.back) : s.drains := by
  have hb : s.back = .lockWait := by
    cases hpc : s.back <;> first | rfl | (rw [hpc] at h; cases h)
  unfold drains
  rw [hb]
  exact ⟨fun _ _ _ _ => trivial, fun _ _ _ => trivial⟩

theorem oneByte_idle {as : List (LogLabel 1)} (ha : ∀ a ∈ as, a.tid? = none ∨ a.tid? = some 0) {s : AsyncState 1}
    (h : (AsyncLogging 1).run .create as = some s) (h0 : isIdle (s.front 0)) (tid : Nat) : s.front tid = .idle := by
  by_cases ht : tid = 0
  · rw [ht]
    exact eq_idle h0
  · refine Lts.System.run_inv_of (I := fun s => s.front tid = .idle) (Q := fun a => a.tid? ≠ some tid)
      (fun v a v' hq hv hs => (step_front hq hs).trans hv) (fun a hm => ?_) h rfl
    rcases ha a hm with h | h
    · simp [h]
    · simp [h, Ne.symm ht]

omit [NeZero n] in
theorem no_notice {output : List FileAppend} (h : output.all (·.buffer?.isSome)) (now : String) (count : Nat) :
    .notice now count ∉ output := by
  intro hm
  have := List.all_eq_true.1 h _ hm
  cases this

/-- The steps of the back end and of `stop` from `wait_for` on. -/
def drainRun : List (LogLabel 1) := [.back "now", .back "now", .owner] ++ List.replicate 25 (.back "now") ++ [.owner]

/-- `stop` is called as the back end begins a round: it writes the byte. -/
theorem stop_drains_round : ∃ s t, (AsyncLogging 1).run .create (oneByte ++ [.back "now"]) = some s ∧
    (AsyncLogging 1).run s (.stop :: drainRun) = some t ∧
    (∀ b, bytesOf (linesOf b t.written) = bytesOf (t.taken b)) ∧ bytesOf (t.taken 0) = [32] := by
  have h : (((AsyncLogging 1).run .create (oneByte ++ [.back "now"])).bind fun s =>
      ((AsyncLogging 1).run s (.stop :: drainRun)).map fun t =>
        (isIdle (s.front 0), isLockWait s.back, t.owner, t.output.all (·.buffer?.isSome), bytesOf (t.taken 0))) =
      some (true, true, .stopped, true, [32]) := by decide +kernel
  obtain ⟨s, hs, h⟩ := Option.bind_eq_some_iff.1 h
  obtain ⟨t, ht, hv⟩ := Option.map_eq_some_iff.1 h
  simp only [Prod.mk.injEq] at hv
  obtain ⟨hi, hb, ho, hout, htk⟩ := hv
  have h0 : (AsyncLogging 1).init .create := rfl
  have hreach := (Lts.System.Reachable.init h0).run hs
  have hidle := oneByte_idle (by decide) hs hi
  have hdrain : s.drains := drains_lockWait hb
  have hend := stop_drains_iff hreach hidle (by decide) ht ho (no_notice hout)
  exact ⟨s, t, hs, ht, hend.2.2.2 hdrain, htk⟩

/-- `stop` is called before the first round: the byte stays in its bucket. -/
theorem stop_loses_byte : ∃ s t, (AsyncLogging 1).run .create oneByte = some s ∧ (∀ tid, s.front tid = .idle) ∧
    (AsyncLogging 1).run s [.stop, .back "now", .back "now", .owner, .owner] = some t ∧ t.owner = .stopped ∧
    t.output = [] ∧ bytesOf (t.taken 0) = [32] := by
  have h : (((AsyncLogging 1).run .create oneByte).bind fun s =>
      ((AsyncLogging 1).run s [.stop, .back "now", .back "now", .owner, .owner]).map fun t =>
        (isIdle (s.front 0), t.owner, t.output.isEmpty, bytesOf (t.taken 0))) =
      some (true, .stopped, true, [32]) := by decide +kernel
  obtain ⟨s, hs, h⟩ := Option.bind_eq_some_iff.1 h
  obtain ⟨t, ht, hv⟩ := Option.map_eq_some_iff.1 h
  simp only [Prod.mk.injEq] at hv
  obtain ⟨hi, ho, hout, htk⟩ := hv
  exact ⟨s, t, hs, oneByte_idle (by decide) hs hi, ht, ho, List.isEmpty_iff.1 hout, htk⟩

end AsyncLogging

end Ycnt

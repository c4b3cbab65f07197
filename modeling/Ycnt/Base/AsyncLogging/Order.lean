import Mathlib.Data.List.Flatten
import Mathlib.Tactic.Choose
import Ycnt.Base.AsyncLogging.Stop
/-!
# The asynchronous logger and the order of its threads

A thread always uses one bucket, and takes its mutex for one call of `append` after
the other. So the lines of a bucket are, of each thread, its lines in the order of
its calls, and so are the lines written, with those of dropped buffers missing.
-/

namespace Ycnt

open Function

variable {n : Nat}

/-- The lines of thread `tid`. -/
def ofThread (tid : Nat) (calls : List (Nat × Line)) : List Line := (calls.filter (·.1 = tid)).map (·.2)

@[simp] theorem ofThread_append (tid : Nat) (calls calls' : List (Nat × Line)) :
    ofThread tid (calls ++ calls') = ofThread tid calls ++ ofThread tid calls' := by
  simp [ofThread]

theorem ofThread_singleton (tid : Nat) (call : Nat × Line) :
    ofThread tid [call] = if call.1 = tid then [call.2] else [] := by
  by_cases h : call.1 = tid
  · simp [ofThread, h]
  · simp [ofThread, h]

/-- The line of a call that has not yet taken its bucket's mutex. -/
def AppendPc.waiting : AppendPc n → Option Line
  | .lockNode _ l => some l
  | _ => none

/-- The call of `append` that a step begins. -/
def LogLabel.call : LogLabel n → List (Nat × Line)
  | .append tid l => [(tid, l)]
  | _ => []

namespace AsyncState

variable [NeZero n] {s s' : AsyncState n} {calls order : List (Nat × Line)}

/-- The lines of bucket `b` among the calls. -/
def ofBucket (b : Fin n) (calls : List (Nat × Line)) : List Line := (calls.filter (bucket ·.1 = b)).map (·.2)

theorem ofBucket_append (b : Fin n) (calls calls' : List (Nat × Line)) :
    ofBucket b (calls ++ calls') = ofBucket b calls ++ ofBucket b calls' := by
  simp [ofBucket]

theorem ofBucket_singleton (b : Fin n) (call : Nat × Line) :
    ofBucket b [call] = if bucket call.1 = b then [call.2] else [] := by
  by_cases h : bucket call.1 = b
  · simp [ofBucket, h]
  · simp [ofBucket, h]

/-- `order` are the calls in the order in which they took a mutex; the other calls,
at most one of each thread, have yet to take one. -/
structure Ordered (calls order : List (Nat × Line)) (s : AsyncState n) : Prop where
  taken : ∀ b, s.taken b = ofBucket b order
  calls : ∀ tid, ofThread tid calls = ofThread tid order ++ (s.front tid).waiting.toList
  own : ∀ tid b l, s.front tid = .lockNode b l → b = bucket tid

theorem create_ordered : Ordered [] [] (create : AsyncState n) :=
  ⟨fun _ => rfl, fun _ => rfl, fun _ _ _ h => by cases h⟩

/-- Steps that neither begin a call nor take a bucket's mutex for one. -/
theorem Ordered.same (h : Ordered calls order s) (ht : s'.taken = s.taken) (hf : s'.front = s.front) :
    Ordered calls order s' :=
  ⟨ht ▸ h.taken, hf ▸ h.calls, hf ▸ h.own⟩

/-- A thread moves on after it has taken its bucket's mutex. -/
theorem Ordered.move {tid : Nat} {pc : AppendPc n} (h : Ordered calls order s) (hw : (s.front tid).waiting = none)
    (ht : s'.taken = s.taken) (hf : s'.front = update s.front tid pc) (hpc : pc.waiting = none) : Ordered calls order s' := by
  refine ⟨ht ▸ h.taken, fun u => ?_, fun u b l hu => ?_⟩
  · rw [h.calls u, hf]
    by_cases hut : u = tid
    · rw [hut, update_self, hw, hpc]
    · rw [update_of_ne hut]
  · rw [hf] at hu
    by_cases hut : u = tid
    · rw [hut, update_self] at hu
      rw [hu] at hpc
      cases hpc
    · rw [update_of_ne hut] at hu
      exact h.own u b l hu

theorem frontStep_ordered {tid : Nat} (h : Ordered calls order s) (hs : s.frontStep tid = some s') :
    ∃ order', Ordered calls order' s' := by
  cases hpc : s.front tid with
  | lockNode b l =>
    simp only [frontStep, hpc, Option.map_eq_some_iff, lock_eq_some] at hs
    obtain ⟨_, ⟨-, rfl⟩, rfl⟩ := hs
    obtain rfl := h.own tid b l hpc
    refine ⟨order ++ [(tid, l)], fun b' => ?_, fun u => ?_, fun u b' l' hu => ?_⟩
    · rw [ofBucket_append, ofBucket_singleton, ← h.taken b']
      by_cases hb : b' = bucket tid
      · subst hb
        simp
      · rw [if_neg (Ne.symm hb), List.append_nil]
        exact update_of_ne hb _ _
    · rw [ofThread_append, ofThread_singleton, h.calls u, List.append_assoc]
      congr 1
      by_cases hut : u = tid
      · simp [hut, hpc, AppendPc.waiting, setFront]
      · simp [hut, Ne.symm hut, setFront]
    · by_cases hut : u = tid
      · simp [hut, setFront] at hu
      · exact h.own u b' l' (by simpa [hut, setFront] using hu)
  | idle => simp [frontStep, hpc] at hs
  | test b l =>
    simp only [frontStep, hpc, Option.map_eq_some_iff] at hs
    obtain ⟨buf, -, rfl⟩ := hs
    refine ⟨order, ?_⟩
    split
    · exact h.move (by rw [hpc]; rfl) rfl rfl rfl
    · exact h.move (by rw [hpc]; rfl) rfl rfl rfl
  | lockFront b l | lockPool b l =>
    simp only [frontStep, hpc, Option.map_eq_some_iff, lock_eq_some] at hs
    obtain ⟨_, ⟨-, rfl⟩, rfl⟩ := hs
    exact ⟨order, h.move (by rw [hpc]; rfl) rfl rfl rfl⟩
  | handOver b l =>
    simp only [frontStep, hpc, Option.map_eq_some_iff] at hs
    obtain ⟨buf, -, rfl⟩ := hs
    exact ⟨order, h.move (by rw [hpc]; rfl) rfl rfl rfl⟩
  | tryPop b l | refill b l buf | unlockNode b =>
    simp only [frontStep, hpc, Option.some.injEq] at hs
    subst hs
    exact ⟨order, h.move (by rw [hpc]; rfl) rfl rfl rfl⟩

theorem step_ordered {a : LogLabel n} (h : Ordered calls order s) (hs : s.step a = some s') :
    ∃ order', Ordered (calls ++ a.call) order' s' := by
  have hquiet : a.call = [] → s'.taken = s.taken → s'.front = s.front → ∃ order', Ordered (calls ++ a.call) order' s' := by
    intro hc ht hf
    rw [hc, List.append_nil]
    exact ⟨order, h.same ht hf⟩
  cases a with
  | start | stop =>
    simp only [step, Option.ite_none_right_eq_some, Option.some.injEq] at hs
    obtain ⟨-, rfl⟩ := hs
    exact hquiet rfl rfl rfl
  | owner =>
    obtain ⟨hf, ht, -⟩ := ownerStep_frame hs
    exact hquiet rfl ht hf
  | append tid l =>
    simp only [step] at hs
    split at hs
    · rename_i hpc
      cases hs
      refine ⟨order, h.taken, fun u => ?_, fun u b l' hu => ?_⟩
      · rw [LogLabel.call, ofThread_append, ofThread_singleton, h.calls u]
        by_cases hut : u = tid
        · simp [hut, hpc, AppendPc.waiting, setFront]
        · simp [hut, Ne.symm hut, setFront]
      · by_cases hut : u = tid
        · subst hut
          have heq : (AppendPc.lockNode (bucket u) l : AppendPc n) = .lockNode b l' := by
            simpa [setFront] using hu
          exact (AppendPc.lockNode.inj heq).1.symm
        · exact h.own u b l' (by simpa [hut, setFront] using hu)
    · cases hs
  | front tid =>
    have hc : (LogLabel.front tid : LogLabel n).call = [] := rfl
    rw [hc, List.append_nil]
    exact frontStep_ordered h hs
  | back now =>
    obtain ⟨-, -, hf, ht, -⟩ := backStep_frame hs
    exact hquiet rfl ht hf
  | timeout =>
    simp only [step] at hs
    split at hs
    · cases hs
      exact hquiet rfl rfl rfl
    · cases hs

theorem run_ordered {t : AsyncState n} {as : List (LogLabel n)} (h : Ordered calls order s)
    (hr : (AsyncLogging n).run s as = some t) : ∃ order', Ordered (calls ++ as.flatMap LogLabel.call) order' t := by
  induction as generalizing s calls order with
  | nil =>
    simp only [Lts.System.run_nil, Option.some.injEq] at hr
    rw [← hr, List.flatMap_nil, List.append_nil]
    exact ⟨order, h⟩
  | cons a as ih =>
    obtain ⟨s', h1, h2⟩ := Lts.System.run_cons.1 hr
    obtain ⟨order', h'⟩ := step_ordered h h1
    rw [List.flatMap_cons, ← List.append_assoc]
    exact ih h' h2

/-! ## Whose lines were written -/

/-- A thread's lines are among those of its bucket. -/
theorem ofThread_filter {tid : Nat} {b : Fin n} (hb : bucket tid = b) (calls : List (Nat × Line)) :
    ofThread tid (calls.filter (bucket ·.1 = b)) = ofThread tid calls := by
  rw [ofThread, List.filter_filter, ofThread]
  congr 1
  refine List.filter_congr fun call _ => ?_
  by_cases h : call.1 = tid
  · simp [h, hb]
  · simp [h]

/-- Lines of buckets, where the threads are known bucket by bucket, are lines of threads. -/
theorem exists_threads (lines : List (Fin n × Line)) {kept : Fin n → List (Nat × Line)}
    (hkept : ∀ b, (kept b).map (·.2) = (lines.filter (·.1 = b)).map (·.2)) (hown : ∀ b, ∀ call ∈ kept b, bucket call.1 = b) :
    ∃ calls : List (Nat × Line), calls.map (·.2) = lines.map (·.2) ∧ ∀ b, calls.filter (bucket ·.1 = b) = kept b := by
  induction lines generalizing kept with
  | nil =>
    refine ⟨[], rfl, fun b => ?_⟩
    exact (List.map_eq_nil_iff.1 (hkept b)).symm
  | cons p lines ih =>
    obtain ⟨b, l⟩ := p
    -- The first line kept of its bucket.
    obtain ⟨call, rest, hcons, hl⟩ : ∃ call rest, kept b = call :: rest ∧ call.2 = l := by
      have hb := hkept b
      rw [List.filter_cons_of_pos (by simp), List.map_cons] at hb
      obtain ⟨call, rest, hcons, hl, -⟩ := List.map_eq_cons_iff.1 hb
      exact ⟨call, rest, hcons, hl⟩
    obtain ⟨calls, hlines, hcalls⟩ := @ih (update kept b rest) (fun b' => by
      have hb := hkept b'
      by_cases hbb : b' = b
      · subst hbb
        rw [hcons, List.filter_cons_of_pos (by simp), List.map_cons, List.map_cons] at hb
        rw [update_self]
        exact (List.cons.inj hb).2
      · rw [List.filter_cons_of_neg (by simpa using Ne.symm hbb)] at hb
        rw [update_of_ne hbb, hb]) (fun b' call' hc => by
      by_cases hbb : b' = b
      · subst hbb
        rw [update_self] at hc
        exact hown b' call' (hcons ▸ List.mem_cons_of_mem call hc)
      · rw [update_of_ne hbb] at hc
        exact hown b' call' hc)
    have hbucket : bucket call.1 = b := hown b call (hcons ▸ List.mem_cons_self)
    refine ⟨call :: calls, by rw [List.map_cons, List.map_cons, hlines, hl], fun b' => ?_⟩
    have hb := hcalls b'
    by_cases hbb : b' = b
    · subst hbb
      rw [update_self] at hb
      rw [List.filter_cons_of_pos (by simpa using hbucket), hb, hcons]
    · rw [update_of_ne hbb] at hb
      rw [List.filter_cons_of_neg (by rw [hbucket]; simpa using Ne.symm hbb), hb]

end AsyncState

namespace AsyncLogging

variable [NeZero n] {s : AsyncState n} {as : List (LogLabel n)}

open AsyncState

/-- A notice announces at least one buffer. -/
theorem written_of_no_notice (h : (AsyncLogging n).Reachable s) (hn : ∀ now count, .notice now count ∉ s.output) :
    s.written = s.retired := by
  refine written_eq h ?_ hn
  have hf := (conserved h).filed
  have hsum : (s.output.map FileAppend.dropped).sum = 0 := by
    rw [List.sum_eq_zero_iff_forall_eq_nat]
    intro k hk
    obtain ⟨c, hc, rfl⟩ := List.mem_map.1 hk
    cases c with
    | notice now count => exact absurd hc (hn now count)
    | buffer bytes => rfl
  have hcount := hf.count
  have hle := hf.order.length_le
  exact List.eq_nil_of_length_eq_zero (by omega)

/-- The lines of a bucket that were written, with the threads that appended them. -/
theorem exists_kept (hr : (AsyncLogging n).run .create as = some s) (b : Fin n) :
    ∃ kept : List (Nat × Line), kept.map (·.2) = linesOf b s.written ∧ (∀ call ∈ kept, bucket call.1 = b) ∧
      (∀ tid, bucket tid = b → (ofThread tid kept).Sublist (ofThread tid (as.flatMap LogLabel.call))) ∧
      ((∀ now count, .notice now count ∉ s.output) →
        ∀ tid, bucket tid = b → ofThread tid kept <+: ofThread tid (as.flatMap LogLabel.call)) := by
  have h0 : (AsyncLogging n).init .create := rfl
  have hreach := (Lts.System.Reachable.init h0).run hr
  obtain ⟨order, hord⟩ := run_ordered create_ordered hr
  rw [List.nil_append] at hord
  have hc := conserved hreach
  -- What was handed over is, bucket by bucket, the beginning of what was taken.
  have htaken : linesOf b s.handed <+: ofBucket b order := by
    rw [← hord.taken b]
    have happ : linesOf b s.handed <+: s.appended b := ⟨_, (hc.stored.lines b).symm⟩
    by_cases hu : ∃ tid l, (s.front tid).underway = some (b, l)
    · obtain ⟨tid, l, hu⟩ := hu
      rw [(taken hreach).busy b tid l hu]
      exact happ.trans (List.prefix_append _ _)
    · rw [(taken hreach).free b fun tid l hl => hu ⟨tid, l, hl⟩]
      exact happ
  have hretired : linesOf b s.retired <+: ofBucket b order := by
    refine List.IsPrefix.trans ?_ htaken
    rw [hc.queue]
    simp only [linesOf_append, List.append_assoc]
    exact List.prefix_append _ _
  have hcalls : ∀ tid, ofThread tid order <+: ofThread tid (as.flatMap LogLabel.call) := fun tid => by
    rw [hord.calls tid]
    exact List.prefix_append _ _
  by_cases hn : ∀ now count, .notice now count ∉ s.output
  · have hwritten : linesOf b s.written <+: ofBucket b order := by
      rw [written_of_no_notice hreach hn]
      exact hretired
    obtain ⟨kept, hkept, heq⟩ := List.prefix_map_iff.1 hwritten
    have hpre : ∀ tid, bucket tid = b → ofThread tid kept <+: ofThread tid (as.flatMap LogLabel.call) := by
      intro tid htid
      refine List.IsPrefix.trans ?_ (hcalls tid)
      rw [← ofThread_filter htid order]
      exact (hkept.filter _).map _
    refine ⟨kept, heq.symm, fun call hm => ?_, fun tid htid => (hpre tid htid).sublist, fun _ => hpre⟩
    simpa using (List.mem_filter.1 (hkept.subset hm)).2
  · have hwritten : (linesOf b s.written).Sublist (ofBucket b order) :=
      ((hc.filed.order.flatMap _).trans hretired.sublist)
    obtain ⟨kept, hkept, heq⟩ := List.sublist_map_iff.1 hwritten
    refine ⟨kept, heq.symm, fun call hm => ?_, fun tid htid => ?_, fun hn' => absurd hn' hn⟩
    · simpa using (List.mem_filter.1 (hkept.subset hm)).2
    · refine List.Sublist.trans ?_ (hcalls tid).sublist
      rw [← ofThread_filter htid order]
      exact (hkept.filter _).map _

/-- The lines written, in order, with the threads that appended them. Of each thread
they are some of its lines, in the order of its calls; the first ones, where no
buffer was dropped. -/
theorem exists_written (hr : (AsyncLogging n).run .create as = some s) :
    ∃ lines : List (Nat × Line), lines.map (·.2) = (s.written.flatMap (·.lines)).map (·.2) ∧
      (∀ tid, (ofThread tid lines).Sublist (ofThread tid (as.flatMap LogLabel.call))) ∧
      ((∀ now count, .notice now count ∉ s.output) →
        ∀ tid, ofThread tid lines <+: ofThread tid (as.flatMap LogLabel.call)) := by
  choose kept hkept hown hsub hpre using exists_kept hr
  have hlines : ∀ b, (kept b).map (·.2) = ((s.written.flatMap (·.lines)).filter (·.1 = b)).map (·.2) := by
    intro b
    rw [hkept b, List.filter_flatMap, List.map_flatMap]
    rfl
  obtain ⟨lines, heq, hfilter⟩ := exists_threads (s.written.flatMap (·.lines)) hlines hown
  have hthread : ∀ tid, ofThread tid lines = ofThread tid (kept (bucket tid)) := by
    intro tid
    rw [← hfilter (bucket tid), ofThread_filter rfl]
  refine ⟨lines, heq, fun tid => ?_, fun hn tid => ?_⟩
  · rw [hthread tid]
    exact hsub (bucket tid) tid rfl
  · rw [hthread tid]
    exact hpre (bucket tid) hn tid rfl

end AsyncLogging

end Ycnt

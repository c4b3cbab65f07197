import Ycnt.Base.CountDownLatch
/-!
# Starting a thread

`Thread::start` (`Thread.cpp`) in the thread that calls it and `ThreadData::run` in
the new one, up to its `countDown`. They meet at `latch_`, whose every section is a
step here as well.
-/

namespace Ycnt

/-- The two that use `latch_`. -/
inductive Party where
  | starter
  | created
  deriving DecidableEq, Repr

/-- Where `start` stands. -/
inductive StartPc where
  | idle
  /-- `pthread_create` has returned 0. -/
  | created
  | waiting
  /-- At `assert(tid_ > 0)`. -/
  | waited
  | returned
  | aborted
  deriving DecidableEq, Repr

/-- Where `ThreadData::run` stands. -/
inductive RunPc where
  | notCreated
  | entry
  | tidStored
  | countedDown
  deriving DecidableEq, Repr

inductive StartLabel where
  /-- `start` up to the answer of `pthread_create`. -/
  | start (created : Bool)
  | wait
  | resume
  | spurious
  | assertTid
  /-- The kernel's answer to `gettid`. -/
  | storeTid (tid : Int)
  | countDown

/-- The fields of a `Thread` that `start` and `run` share, and where the two stand. -/
structure Thread where
  started : Bool
  tid : Int
  latch : Latch Party
  startPc : StartPc
  runPc : RunPc

namespace Thread

/-- A constructed `Thread`. -/
def create : Thread := ⟨false, 0, .create 1, .idle, .notCreated⟩

/-- `start` after a section of its `latch_.wait()`. -/
def waitedOn (s : Thread) (latch : Latch Party) : Thread :=
  { s with latch := latch, startPc := if latch.thread .starter = .idle then .waited else .waiting }

def step (s : Thread) : StartLabel → Option Thread
  | .start created =>
    if s.startPc = .idle ∧ s.started = false then
      let s := { s with started := true }
      some (if created then { s with startPc := .created, runPc := .entry } else { s with started := false })
    else none
  | .wait =>
    if s.startPc = .created then (s.latch.step (.wait .starter)).map s.waitedOn else none
  | .resume =>
    if s.startPc = .waiting then (s.latch.step (.resume .starter)).map s.waitedOn else none
  | .spurious =>
    if s.startPc = .waiting then (s.latch.step (.spurious .starter)).map fun l => { s with latch := l } else none
  | .assertTid =>
    if s.startPc = .waited then some { s with startPc := if 0 < s.tid then .returned else .aborted } else none
  | .storeTid tid =>
    if s.runPc = .entry ∧ 0 < tid then some { s with tid := tid, runPc := .tidStored } else none
  | .countDown =>
    if s.runPc = .tidStored then
      (s.latch.step (.countDown .created)).map fun l => { s with latch := l, runPc := .countedDown }
    else none

end Thread

/-- One `Thread`, its `start` and the thread it creates. -/
def ThreadStart : Lts.System Thread StartLabel where
  init s := s = .create
  step s a := s.step a

namespace Thread

variable {s s' : Thread}

/-- What `start` knows once it has waited, and what the new thread has done by then. -/
structure Handshake (s : Thread) : Prop where
  latch : (CountDown Party 1).Reachable s.latch
  idle : s.startPc = .idle → s.runPc = .notCreated
  countedDown : s.latch.countedDown = 0 ∨ s.runPc = .countedDown
  tid_pos : s.runPc = .tidStored ∨ s.runPc = .countedDown → 0 < s.tid
  waited : s.startPc = .waited ∨ s.startPc = .returned → s.latch.returned ≠ []
  not_aborted : s.startPc ≠ .aborted

theorem create_handshake : Handshake create := by
  refine ⟨.init rfl, fun _ => rfl, .inl rfl, fun h => ?_, fun h => ?_, fun h => ?_⟩
  · rcases h with h | h <;> cases h
  · rcases h with h | h <;> cases h
  · cases h

/-- Who has waited has seen the new thread count down. -/
theorem Handshake.counted (h : Handshake s) (hw : s.startPc = .waited ∨ s.startPc = .returned) :
    s.runPc = .countedDown := by
  have hle := (Latch.reachable_counts h.latch).returned_le (h.waited hw)
  rcases h.countedDown with h0 | h0
  · omega
  · exact h0

/-- A section of the starter's `wait`, entered at a call or at a wakeup. -/
theorem Handshake.waitedOn {a : LatchLabel Party} (h : Handshake s) (ha : s.latch.step a = some (s.latch.wait .starter)) :
    Handshake (s.waitedOn (s.latch.wait .starter)) := by
  have hcounted : (s.latch.wait .starter).countedDown = s.latch.countedDown := by
    unfold Latch.wait
    split <;> rfl
  by_cases hidle : (s.latch.wait .starter).thread .starter = .idle
  · have hpc : (s.waitedOn (s.latch.wait .starter)).startPc = .waited := if_pos hidle
    refine ⟨h.latch.step ha, by simp [hpc], hcounted ▸ h.countedDown, h.tid_pos, fun _ => ?_, by simp [hpc]⟩
    exact Latch.wait_idle hidle
  · have hpc : (s.waitedOn (s.latch.wait .starter)).startPc = .waiting := if_neg hidle
    exact ⟨h.latch.step ha, by simp [hpc], hcounted ▸ h.countedDown, h.tid_pos, by simp [hpc], by simp [hpc]⟩

theorem step_handshake {a : StartLabel} (h : Handshake s) (hs : s.step a = some s') : Handshake s' := by
  cases a with
  | start created =>
    simp only [step, Option.ite_none_right_eq_some, Option.some.injEq] at hs
    obtain ⟨⟨hidle, -⟩, rfl⟩ := hs
    have hrun := h.idle hidle
    have hcount : s.latch.countedDown = 0 := by simpa [hrun] using h.countedDown
    cases created with
    | true => exact ⟨h.latch, by simp, .inl hcount, by simp, by simp, by simp⟩
    | false => exact ⟨h.latch, fun _ => hrun, .inl hcount, h.tid_pos, h.waited, h.not_aborted⟩
  | wait =>
    simp only [step, Latch.step, Option.ite_none_right_eq_some, Option.map_eq_some_iff] at hs
    obtain ⟨-, l, ⟨hl, hlw⟩, rfl⟩ := hs
    obtain rfl := Option.some.inj hlw
    exact h.waitedOn (a := .wait .starter) (if_pos hl)
  | resume =>
    simp only [step, Latch.step, Option.ite_none_right_eq_some, Option.map_eq_some_iff] at hs
    obtain ⟨-, l, ⟨hl, hlw⟩, rfl⟩ := hs
    obtain rfl := Option.some.inj hlw
    exact h.waitedOn (a := .resume .starter) (if_pos hl)
  | spurious =>
    simp only [step, Option.ite_none_right_eq_some, Option.map_eq_some_iff] at hs
    obtain ⟨hpc, l, hl, rfl⟩ := hs
    have hcounted : l.countedDown = s.latch.countedDown := by
      simp only [Latch.step, Option.ite_none_right_eq_some, Option.some.injEq] at hl
      rw [← hl.2]
    exact ⟨h.latch.step (a := .spurious .starter) hl, h.idle, hcounted ▸ h.countedDown, h.tid_pos, by simp [hpc],
      h.not_aborted⟩
  | assertTid =>
    simp only [step, Option.ite_none_right_eq_some, Option.some.injEq] at hs
    obtain ⟨hpc, rfl⟩ := hs
    -- The new thread has counted down, and before that stored its tid.
    rw [if_pos (h.tid_pos (.inr (h.counted (.inl hpc))))]
    exact ⟨h.latch, by simp, h.countedDown, h.tid_pos, fun _ => h.waited (.inl hpc), by simp⟩
  | storeTid tid =>
    simp only [step, Option.ite_none_right_eq_some, Option.some.injEq] at hs
    obtain ⟨⟨hpc, htid⟩, rfl⟩ := hs
    have hcount : s.latch.countedDown = 0 := by simpa [hpc] using h.countedDown
    refine ⟨h.latch, fun hidle => ?_, .inl hcount, fun _ => htid, h.waited, h.not_aborted⟩
    rw [h.idle hidle] at hpc
    cases hpc
  | countDown =>
    simp only [step, Option.ite_none_right_eq_some, Option.map_eq_some_iff] at hs
    obtain ⟨hpc, l, hl, rfl⟩ := hs
    have hreturned : l.returned = s.latch.returned := by
      simp only [Latch.step, Option.ite_none_right_eq_some] at hl
      exact Latch.countDown_returned hl.2
    refine ⟨h.latch.step (a := .countDown .created) hl, fun hidle => ?_, .inr rfl, fun _ => h.tid_pos (.inl hpc),
      fun hw => ?_, h.not_aborted⟩
    · rw [h.idle hidle] at hpc
      cases hpc
    · rw [hreturned]
      exact h.waited hw

theorem reachable_handshake (h : ThreadStart.Reachable s) : Handshake s := by
  refine h.inv (I := Handshake) (fun t ht => ?_) fun _ _ _ hi hs => step_handshake hi hs
  obtain rfl : t = .create := ht
  exact create_handshake

end Thread

/-- No `wait` returns before the latch has been counted down and none sleeps after
that, and so a started thread has stored its tid when `start` returns. -/
theorem latch_releases {τ : Type*} [DecidableEq τ] {count : Nat} {l : Latch τ} {s : Thread}
    (hl : (CountDown τ count).Reachable l) (hs : ThreadStart.Reachable s) :
    (l.returned ≠ [] → count ≤ l.countedDown) ∧ (∀ t, l.thread t = .asleep → 0 < l.count) ∧
      (count ≤ l.countedDown → ∀ t, l.thread t ≠ .asleep ∧ (l.wait t).thread t = .idle ∧
        (l.wait t).returned = l.returned ++ [t]) ∧
      (s.startPc = .returned → s.runPc = .countedDown ∧ 0 < s.tid) ∧ s.startPc ≠ .aborted := by
  have hi := Latch.reachable_counts hl
  have hh := Thread.reachable_handshake hs
  refine ⟨hi.returned_le, hi.asleep_pos, fun hdone t => Latch.released hl hdone t, fun hret => ?_, hh.not_aborted⟩
  have hrun := hh.counted (.inr hret)
  exact ⟨hrun, hh.tid_pos (.inr hrun)⟩

/-- Two threads wait for two counts and a third is counted; a thread that is created
stores its tid only while `start` sleeps. -/
theorem latch_releases_two :
    ∃ (l : Latch (Fin 3)) (s : Thread), (l.returned = [0, 1] ∧ l.countedDown = 3) ∧ (s.startPc = .returned ∧ s.tid = 7) ∧
      (l.returned ≠ [] → 2 ≤ l.countedDown) ∧ (s.startPc = .returned → s.runPc = .countedDown ∧ 0 < s.tid) := by
  have hl : (CountDown (Fin 3) 2).run (.create (2 : Nat)) [.wait 0, .spurious 0, .resume 0, .countDown 2, .wait 1,
      .countDown 2, .resume 0, .countDown 2, .resume 1] = some _ := rfl
  have hs : ThreadStart.run .create [.start true, .wait, .storeTid 7, .countDown, .resume, .assertTid] = some _ := rfl
  have h := latch_releases (Lts.System.Reachable.run (.init rfl) hl) (Lts.System.Reachable.run (.init rfl) hs)
  exact ⟨_, _, by decide, by decide, h.1, h.2.2.2.1⟩

end Ycnt

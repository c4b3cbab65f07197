import Ycnt.Net.EpollPoller.Mapped
import Ycnt.Net.EventLoop
/-!
# The iterations of one loop

`EventLoop::loop` with the operations of its thread on channels between the
polls. `poll` appends to `activeChannels_`, and nothing takes anything out.
-/

namespace Ycnt.Net

open Function Linux

section
variable {κ : Type*} [DecidableEq κ] {fd : κ → Int} {fault : Option Errno} {s s' : LoopState κ} {c : κ}

/-! ## What a poll reports -/

/-- The channels that `epoll_wait` reports, each with its mask. -/
def reported (s : LoopState κ) (evs : List (Int × BitVec 32)) : List (κ × BitVec 32) :=
  evs.filterMap fun e => (s.kernel e.1).map fun i => (i.ptr, e.2)

theorem pollLoop_other (evs : List (Int × BitVec 32)) {s : LoopState κ} (hi : Mapped fd s)
    (h : EpollPoller.pollLoop fd s evs = some s') (hc : ∀ e ∈ evs, e.1 ≠ fd c) : s'.channel c = s.channel c := by
  induction evs generalizing s with
  | nil => rw [← Option.some.inj h]
  | cons e evs ih =>
    obtain ⟨f, events⟩ := e
    simp only [EpollPoller.pollLoop] at h
    split at h
    · cases h
    · rename_i event d hk
      split at h
      · have hd : c ≠ d := by
          rintro rfl
          exact hc (f, events) (by simp) (hi.ptr_fd _ _ hk).symm
        rw [ih (hi.polled (report_polled s d events)) h fun e' he' => hc e' (by simp [he'])]
        exact update_of_ne hd _ _
      · cases h

/-- The loop of `poll` appends the reported channels, and leaves each of them
its own mask. -/
theorem pollLoop_reported (evs : List (Int × BitVec 32)) {s : LoopState κ} (hi : Mapped fd s)
    (hn : (evs.map (·.1)).Nodup) (h : EpollPoller.pollLoop fd s evs = some s') :
    s'.activeChannels = s.activeChannels ++ (reported s evs).map (·.1) ∧
      ∀ x ∈ reported s evs, (s'.channel x.1).revents = x.2 ∧ (s'.channel x.1).flag ≠ .kNew := by
  induction evs generalizing s with
  | nil =>
    obtain rfl := Option.some.inj h
    simp [reported]
  | cons e evs ih =>
    obtain ⟨f, events⟩ := e
    rw [List.map_cons, List.nodup_cons] at hn
    simp only [EpollPoller.pollLoop] at h
    split at h
    · cases h
    · rename_i event c hk
      split at h
      · rename_i hc
        have hfd : fd c = f := hi.ptr_fd _ _ hk
        have hi' := hi.polled (report_polled s c events)
        obtain ⟨hactive, hmask⟩ := ih hi' hn.2 h
        have hcons : reported s ((f, events) :: evs) = (c, events) :: reported s evs := by
          simp [reported, hk]
        -- The other events have other descriptors.
        have hself := pollLoop_other (c := c) evs hi' h fun e he heq =>
          hn.1 (List.mem_map.2 ⟨e, he, heq.trans hfd⟩)
        refine ⟨?_, fun x hx => ?_⟩
        · rw [hactive, hcons, List.map_cons, List.append_assoc, List.singleton_append]
          rfl
        · rw [hcons] at hx
          rcases List.mem_cons.1 hx with rfl | hx
          · rw [hself]
            simp only [LoopState.setChannel, update_self, true_and]
            exact (hi.mapped_iff_ne c).1 hc
          · exact hmask x hx
      · cases h

theorem poll_reported {result : Option (List (Int × BitVec 32))} (hi : Mapped fd s)
    (hr : ∀ evs ∈ result, s.Reports evs) (h : EpollPoller.poll fd s result = some s') :
    s'.activeChannels = s.activeChannels ++ (reported s (result.getD [])).map (·.1) ∧
      ∀ x ∈ reported s (result.getD []), (s'.channel x.1).revents = x.2 ∧ (s'.channel x.1).flag ≠ .kNew := by
  cases result with
  | none =>
    obtain rfl := Option.some.inj h
    simp [reported]
  | some evs =>
    obtain ⟨t, ht, rfl⟩ := Option.map_eq_some_iff.1 h
    have hrep := pollLoop_reported evs hi (hr evs rfl).2.1 ht
    split
    · exact hrep
    · exact hrep

omit [DecidableEq κ] in
/-- Every event that can be reported is one of a channel. -/
theorem reported_length {evs : List (Int × BitVec 32)} (h : s.Reports evs) :
    (reported s evs).length = evs.length := by
  rw [reported, List.filterMap_length_eq_length]
  intro e he
  rw [Option.isSome_map]
  exact h.1 e he

theorem step_activeChannels {op : LoopOp κ} (hi : Mapped fd s) (hop : ∀ result, op ≠ .poll result)
    (h : s.step fd fault op = some s') : s'.activeChannels = s.activeChannels := by
  rcases step_cases h with ⟨c, f, -, h⟩ | ⟨c, -, h⟩ | ⟨result, hr, -⟩
  · obtain ⟨-, _, _, -, _, _, -, rfl⟩ := changeEvents_ctl hi rfl h
    rfl
  · obtain ⟨-, rfl⟩ := remove_deleted hi h
    rfl
  · exact absurd hr (hop result)

end

namespace EventLoop

/-! ## Iterations -/

inductive IterationLabel (τ φ κ : Type*) where
  | loop (a : LoopLabel τ φ)
  /-- The loop's thread operates on a channel. -/
  | channel (op : LoopOp κ) (fault : Option Errno)

variable {τ φ κ : Type*} [DecidableEq τ] [DecidableEq κ]

/-- `Requests`, and between any two steps of `loop` operations of its thread on channels. -/
def Iterations (τ φ : Type*) {κ : Type*} [DecidableEq τ] [DecidableEq κ] (threadId : τ) (fd : κ → Int)
    (wakeupChannel : κ) : Lts.System (EventLoop τ φ κ) (IterationLabel τ φ κ) where
  init s := create fd wakeupChannel = some s
  step s
    | .loop a => s.step threadId fd wakeupChannel a
    | .channel (.poll _) _ => none
    | .channel op fault => (s.toLoopState.step fd fault op).map fun l => { s with toLoopState := l }

/-- After a poll `activeChannels_` holds what it reported, each channel with its
mask, and no channel that has been removed. -/
def OwnEvents (s : EventLoop τ φ κ) (a : IterationLabel τ φ κ) (s' : EventLoop τ φ κ) : Prop :=
  ∀ result, a = .loop (.poll result) →
    s'.activeChannels.map (fun c => (c, (s'.channel c).revents)) = reported s.toLoopState (result.getD []) ∧
      ∀ c ∈ s'.activeChannels, (s'.channel c).flag ≠ .kNew

/-- The label is a poll. -/
def IterationLabel.Polls : IterationLabel τ φ κ → Prop
  | .loop (.poll _) => True
  | _ => False

/-- The label is a poll that reports an event. -/
def IterationLabel.Reports : IterationLabel τ φ κ → Prop
  | .loop (.poll (some (_ :: _))) => True
  | _ => False

variable {threadId : τ} {fd : κ → Int} {wakeupChannel : κ} {s s' : EventLoop τ φ κ}

omit [DecidableEq τ] in
theorem create_mapped (h : create fd wakeupChannel = some s) :
    Mapped fd s.toLoopState ∧ s.activeChannels = [] := by
  obtain ⟨l, hl, rfl⟩ := Option.map_eq_some_iff.1 h
  obtain ⟨-, _, _, -, _, _, -, rfl⟩ := changeEvents_ctl init_mapped rfl hl
  exact ⟨changeEvents_mapped init_mapped hl, rfl⟩

/-- Only a poll touches the poller and the channels. -/
theorem step_loopState {a : LoopLabel τ φ} (h : s.step threadId fd wakeupChannel a = some s') :
    (∃ result, a = .poll result ∧ (∀ evs ∈ result, s.Reports evs) ∧
      EpollPoller.poll fd s.toLoopState result = some s'.toLoopState) ∨
    (∀ result, a ≠ .poll result) ∧ s'.toLoopState = s.toLoopState := by
  cases a with
  | loop =>
    simp only [step, Option.ite_none_right_eq_some, Option.some.injEq] at h
    obtain ⟨-, rfl⟩ := h
    exact .inr ⟨by simp, rfl⟩
  | test =>
    simp only [step] at h
    split at h
    · split at h <;> cases h <;> exact .inr ⟨by simp, rfl⟩
    · cases h
  | poll result =>
    simp only [step, poll] at h
    split at h
    · split at h
      · rename_i hr
        obtain ⟨l, hl, rfl⟩ := Option.map_eq_some_iff.1 h
        exact .inl ⟨result, rfl, fun evs he => (hr evs he).1, hl⟩
      · cases h
    · cases h
  | readCallback =>
    simp only [step, Option.some.injEq] at h
    subst h
    unfold readCallback
    split <;> exact .inr ⟨by simp, rfl⟩
  | queueInLoop t cb | quit t =>
    simp only [step, Option.ite_none_right_eq_some, Option.some.injEq] at h
    obtain ⟨-, rfl⟩ := h
    exact .inr ⟨by simp, rfl⟩
  | wakeup t =>
    simp only [step, Option.ite_none_right_eq_some, Option.some.injEq] at h
    obtain ⟨-, rfl⟩ := h
    refine .inr ⟨by simp, ?_⟩
    unfold completed wakeup
    split
    · split <;> rfl
    · rfl

/-- A step of the run is a poll, an operation on a channel, or leaves the poller alone. -/
theorem iteration_cases {a : IterationLabel τ φ κ}
    (h : (Iterations τ φ threadId fd wakeupChannel).step s a = some s') :
    (∃ result, a = .loop (.poll result) ∧ (∀ evs ∈ result, s.Reports evs) ∧
      EpollPoller.poll fd s.toLoopState result = some s'.toLoopState) ∨
    (¬ a.Polls ∧ ∃ op fault, (∀ result, op ≠ .poll result) ∧ s.toLoopState.step fd fault op = some s'.toLoopState) ∨
    ¬ a.Polls ∧ s'.toLoopState = s.toLoopState := by
  cases a with
  | loop a =>
    rcases step_loopState h with ⟨result, rfl, hr, hp⟩ | ⟨ha, hs⟩
    · exact .inl ⟨result, rfl, hr, hp⟩
    · refine .inr (.inr ⟨fun hpoll => ?_, hs⟩)
      cases a with
      | poll result => exact ha result rfl
      | _ => exact hpoll
  | channel op fault =>
    cases op with
    | poll result => cases h
    | _ =>
      obtain ⟨l, hl, rfl⟩ := Option.map_eq_some_iff.1 h
      refine .inr (.inl ⟨id, _, fault, ?_, hl⟩)
      exact nofun

theorem iteration_mapped {a : IterationLabel τ φ κ} (hi : Mapped fd s.toLoopState)
    (h : (Iterations τ φ threadId fd wakeupChannel).step s a = some s') : Mapped fd s'.toLoopState := by
  rcases iteration_cases h with ⟨result, rfl, -, hp⟩ | ⟨-, op, fault, -, hs⟩ | ⟨-, hs⟩
  · exact hi.polled (poll_polled hp)
  · exact step_mapped hi hs
  · rw [hs]
    exact hi

/-- A poll sees only its own events exactly when it finds `activeChannels_` empty. -/
theorem ownEvents_iff {a : IterationLabel τ φ κ} (hi : Mapped fd s.toLoopState)
    (h : (Iterations τ φ threadId fd wakeupChannel).step s a = some s') :
    OwnEvents s a s' ↔ (a.Polls → s.activeChannels = []) := by
  rcases iteration_cases h with ⟨result, rfl, hr, hp⟩ | ⟨ha, -⟩ | ⟨ha, -⟩
  · obtain ⟨hactive, hmask⟩ := poll_reported hi hr hp
    constructor
    · intro hown _
      have hlen := congrArg List.length (hown result rfl).1
      rw [List.length_map, hactive, List.length_append, List.length_map] at hlen
      exact List.eq_nil_of_length_eq_zero (by omega)
    · intro hempty result' hres
      obtain rfl : result = result' := by cases hres; rfl
      rw [hactive, hempty trivial, List.nil_append, List.map_map]
      refine ⟨?_, fun c hc => ?_⟩
      · conv_rhs => rw [← List.map_id (reported s.toLoopState (result.getD []))]
        exact List.map_congr_left fun x hx => by simp [(hmask x hx).1]
      · obtain ⟨x, hx, rfl⟩ := List.mem_map.1 hc
        exact (hmask x hx).2
  · refine iff_of_true ?_ fun hp => absurd hp ha
    rintro result rfl
    exact absurd trivial ha
  · refine iff_of_true ?_ fun hp => absurd hp ha
    rintro result rfl
    exact absurd trivial ha

/-- Only a poll that reports an event fills `activeChannels_`. -/
theorem activeChannels_iff {a : IterationLabel τ φ κ} (hi : Mapped fd s.toLoopState)
    (h : (Iterations τ φ threadId fd wakeupChannel).step s a = some s') :
    s'.activeChannels = [] ↔ s.activeChannels = [] ∧ ¬ a.Reports := by
  have hnot : ∀ {a : IterationLabel τ φ κ}, ¬ a.Polls → ¬ a.Reports := by
    intro a ha hrep
    cases a with
    | loop b =>
      cases b with
      | poll => exact ha trivial
      | _ => exact hrep
    | channel => exact hrep
  rcases iteration_cases h with ⟨result, rfl, hr, hp⟩ | ⟨ha, op, fault, hop, hs⟩ | ⟨ha, hs⟩
  · rw [(poll_reported hi hr hp).1, List.append_eq_nil_iff, List.map_eq_nil_iff]
    refine and_congr_right fun _ => ?_
    cases result with
    | none => simp [reported, IterationLabel.Reports]
    | some evs =>
      rw [← List.length_eq_zero_iff, Option.getD_some, reported_length (hr evs rfl)]
      cases evs <;> simp [IterationLabel.Reports]
  · rw [step_activeChannels hi hop hs, and_iff_left (hnot ha)]
  · rw [hs, and_iff_left (hnot ha)]

/-- Every poll of a run finds `activeChannels_` empty exactly when no poll comes
after one that reports an event. -/
theorem polls_empty_iff {s t : EventLoop τ φ κ} {as : List (IterationLabel τ φ κ)} (hi : Mapped fd s.toLoopState)
    (hr : (Iterations τ φ threadId fd wakeupChannel).run s as = some t) :
    (Iterations τ φ threadId fd wakeupChannel).Guarded (fun s a => a.Polls → s.activeChannels = []) s as ↔
      (s.activeChannels ≠ [] → ∀ a ∈ as, ¬ a.Polls) ∧ as.Pairwise fun a b => a.Reports → ¬ b.Polls := by
  induction as generalizing s with
  | nil => simp [Lts.System.Guarded]
  | cons a as ih =>
    obtain ⟨s', h1, h2⟩ := Lts.System.run_cons.1 hr
    have hactive := activeChannels_iff hi h1
    have ih' := ih (iteration_mapped hi h1) h2
    rw [List.pairwise_cons, List.forall_mem_cons]
    constructor
    · intro h
      obtain ⟨hlater, hpairs⟩ := ih'.1 (h.2 s' h1)
      refine ⟨fun hne => ⟨fun hp => hne (h.1 hp), hlater fun h' => hne (hactive.1 h').1⟩, fun b hb hrep => ?_, hpairs⟩
      exact hlater (fun h' => (hactive.1 h').2 hrep) b hb
    · rintro ⟨hlater, hfirst, hpairs⟩
      refine .of_step h1 (fun hp => ?_) (ih'.2 ⟨fun hne => ?_, hpairs⟩)
      · by_contra hne
        exact (hlater hne).1 hp
      · by_cases hempty : s.activeChannels = []
        · refine fun b hb => hfirst b hb ?_
          by_contra hrep
          exact hne (hactive.2 ⟨hempty, hrep⟩)
        · exact (hlater hempty).2

/-- Each iteration of a run sees only its own events exactly when no poll of the
run comes after one that reports an event: `activeChannels_` is never cleared. -/
theorem own_events_iff {s t : EventLoop τ φ κ} {as : List (IterationLabel τ φ κ)}
    (h0 : create fd wakeupChannel = some s) (hr : (Iterations τ φ threadId fd wakeupChannel).run s as = some t) :
    (Iterations τ φ threadId fd wakeupChannel).Steps OwnEvents s as ↔
      as.Pairwise fun a b => a.Reports → ¬ b.Polls := by
  obtain ⟨hi, hempty⟩ := create_mapped h0
  have hsteps := Lts.System.steps_iff_guarded (J := fun s : EventLoop τ φ κ => Mapped fd s.toLoopState) (R := OwnEvents)
    (G := fun s a => a.Polls → s.activeChannels = []) (fun _ _ _ hi h _ => iteration_mapped hi h)
    (fun _ _ _ hi h => ownEvents_iff hi h) hr hi
  rw [hsteps, polls_empty_iff hi hr]
  exact and_iff_right fun hne => absurd hempty hne

/-- Channel `false` of descriptor 5 beside the wakeup channel of descriptor 7. -/
def fiveAndSeven (c : Bool) : Int := if c then 7 else 5

/-- Two polls without events, then one with an event. -/
theorem own_events_last : ∃ s, create fiveAndSeven true = some s ∧
    (Iterations Nat Nat 0 fiveAndSeven true).Steps OwnEvents s [.channel (.enableReading false) none, .loop .loop,
      .loop (.quit 1), .loop .test, .loop (.poll none), .loop .test, .loop (.poll (some [(5, POLLIN)]))] := by
  refine ⟨_, rfl, (own_events_iff rfl rfl).2 ?_⟩
  simp [IterationLabel.Reports, IterationLabel.Polls]

/-- A poll reports channel `false`, and the next one, which reports nothing, leaves
it in `activeChannels_`. -/
theorem events_of_earlier_iteration : ∃ s s₁ s₂, create fiveAndSeven true = some s ∧
    (Iterations Nat Nat 0 fiveAndSeven true).run s [.channel (.enableReading false) none, .loop .loop, .loop (.quit 1),
      .loop .test, .loop (.poll (some [(5, POLLIN)])), .loop .test] = some s₁ ∧
    (Iterations Nat Nat 0 fiveAndSeven true).step s₁ (.loop (.poll (some []))) = some s₂ ∧
    s₂.activeChannels = [false] ∧ ¬ OwnEvents s₁ (.loop (.poll (some []))) s₂ :=
  ⟨_, _, _, rfl, rfl, rfl, rfl, fun h => absurd (h (some []) rfl).1 (List.cons_ne_nil _ _)⟩

end EventLoop

end Ycnt.Net

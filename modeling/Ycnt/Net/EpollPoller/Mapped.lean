import Ycnt.Net.EpollPoller
/-!
# The poller under failing system calls

`Loop` again, now with a kernel that may fail any `epoll_ctl`. The kernel's set
may then differ from what the flags say; `Mapped` is what still holds, the
agreement of the channels' fields with `channels_`.
-/

namespace Ycnt.Net

open Function Linux

variable {κ : Type*} [DecidableEq κ]

/-- Operations that meet the assertions, each with the kernel's answer to its `epoll_ctl`. -/
def FaultyLoop (fd : κ → Int) : Lts.System (LoopState κ) (LoopOp κ × Option Errno) where
  init s := s = .init
  step s a := s.step fd a.2 a.1

variable {fd : κ → Int} {fault : Option Errno} {s s' : LoopState κ} {c : κ}

/-! ## What comes of an operation -/

/-- The kernel's set and the log of failures after a call of `epoll_ctl`. -/
inductive Answer (kernel : InterestSet κ) (failed : List (EpollOp × Int × Errno)) (op : EpollOp) (f : Int)
    (event : EpollEvent κ) : InterestSet κ → List (EpollOp × Int × Errno) → Prop where
  | ok {k : InterestSet κ} : epollCtl kernel op f event = .ok k → Answer kernel failed op f event k failed
  | error (e : Errno) : Answer kernel failed op f event kernel (failed ++ [(op, f, e)])

omit [DecidableEq κ] in
theorem updateInEpoll_cases (fd : κ → Int) (fault : Option Errno) (s : LoopState κ) (c : κ) (op : EpollOp) :
    ∃ k failed, Answer s.kernel s.failed op (fd c) ⟨(s.channel c).events, c⟩ k failed ∧
      EpollPoller.updateInEpoll fd fault s c op = { s with kernel := k, failed := failed } := by
  unfold EpollPoller.updateInEpoll
  cases fault with
  | some e => exact ⟨_, _, .error e, rfl⟩
  | none =>
    cases hk : epollCtl s.kernel op (fd c) ⟨(s.channel c).events, c⟩ with
    | ok k => exact ⟨k, _, .ok hk, rfl⟩
    | error e => exact ⟨_, _, .error e, rfl⟩

/-- The channels' fields agree with `channels_`, and `data.ptr` in the kernel's
set is a channel of the descriptor. -/
structure Mapped (fd : κ → Int) (s : LoopState κ) : Prop where
  mapped_iff : ∀ c, s.channels (fd c) = some c ↔ (s.channel c).flag = .kAdded ∨ (s.channel c).flag = .kDeleted
  mapped_fd : ∀ f c, s.channels f = some c → fd c = f
  ptr_fd : ∀ f i, s.kernel f = some i → fd i.ptr = f
  added_iff : ∀ c, (s.channel c).flag = .kAdded ↔ (s.channel c).events ≠ kNoneEvent
  looped_iff : ∀ c, (s.channel c).addedToLoop = true ↔ (s.channel c).flag ≠ .kNew
  flag_lt : ∀ c, (s.channel c).flag ≠ .NUM_OF_FLAGS
  not_handling : s.eventHandling = false

namespace Mapped

omit [DecidableEq κ] in
theorem mapped_iff_ne (hi : Mapped fd s) (c : κ) : s.channels (fd c) = some c ↔ (s.channel c).flag ≠ .kNew := by
  rw [hi.mapped_iff]
  cases hf : (s.channel c).flag with
  | NUM_OF_FLAGS => exact absurd hf (hi.flag_lt c)
  | _ => simp

omit [DecidableEq κ] in
/-- `channels_` holds one channel for a descriptor. -/
theorem eq_of_fd (hi : Mapped fd s) {c d : κ} (hc : (s.channel c).flag ≠ .kNew) (hd : (s.channel d).flag ≠ .kNew)
    (h : fd d = fd c) : d = c := by
  have hm := (hi.mapped_iff_ne d).2 hd
  rw [h, (hi.mapped_iff_ne c).2 hc] at hm
  exact (Option.some.inj hm).symm

end Mapped

omit [DecidableEq κ] in
theorem init_mapped : Mapped fd (.init : LoopState κ) := by
  constructor <;> simp [LoopState.init, kNoneEvent]

/-- A change of a channel's interest set to `e` makes one call of `epoll_ctl`,
and whatever comes of it the channel is in `channels_` afterwards. -/
theorem changeEvents_ctl {f : BitVec 32 → BitVec 32} {e : BitVec 32} (hi : Mapped fd s)
    (he : f (s.channel c).events = e) (h : Channel.changeEvents fd fault s c f = some s') :
    (∀ d, s.channels (fd c) = some d → d = c) ∧
    ∃ op flag, Ctl (s.channel c).flag e op flag ∧ ∃ k failed, Answer s.kernel s.failed op (fd c) ⟨e, c⟩ k failed ∧
      s' = { s with
        channel := update s.channel c ((s.channel c).registered e flag)
        channels := update s.channels (fd c) (some c)
        kernel := k
        failed := failed } := by
  obtain ⟨hm, op, flag, hctl, rfl⟩ := changeEvents_updates fd fault s c (hi.flag_lt c) he h
  obtain ⟨k, failed, hk, hu⟩ := updateInEpoll_cases fd fault (s.setChannel c ((s.channel c).registered e flag)) c op
  refine ⟨hm, op, flag, hctl, k, failed, ?_, by rw [hu]⟩
  simpa [LoopState.setChannel, Channel.registered] using hk

theorem remove_deleted (hi : Mapped fd s) (h : Channel.remove fd fault s c = some s') :
    (s.channel c).flag = .kDeleted ∧
      s' = { s with
        channel := update s.channel c { s.channel c with flag := .kNew, addedToLoop := false }
        channels := update s.channels (fd c) none } := by
  obtain ⟨hf, -, hs⟩ := remove_updates fd fault s c (hi.flag_lt c) (fun hf => (hi.added_iff c).1 hf) h
  exact ⟨hf, hs⟩

/-- What `poll` leaves alone: it writes `revents_` and the loop's own fields. -/
structure Polled (s s' : LoopState κ) : Prop where
  channel : ∀ c, ∃ r, s'.channel c = { s.channel c with revents := r }
  channels : s'.channels = s.channels
  kernel : s'.kernel = s.kernel
  eventHandling : s'.eventHandling = s.eventHandling
  failed : s'.failed = s.failed

omit [DecidableEq κ] in
theorem Polled.refl (s : LoopState κ) : Polled s s := ⟨fun _ => ⟨_, rfl⟩, rfl, rfl, rfl, rfl⟩

omit [DecidableEq κ] in
theorem Polled.trans {t : LoopState κ} (h : Polled s t) (h' : Polled t s') : Polled s s' := by
  refine ⟨fun c => ?_, h'.channels.trans h.channels, h'.kernel.trans h.kernel,
    h'.eventHandling.trans h.eventHandling, h'.failed.trans h.failed⟩
  obtain ⟨r, hr⟩ := h.channel c
  obtain ⟨r', hr'⟩ := h'.channel c
  exact ⟨r', by rw [hr', hr]⟩

/-- One reported event. -/
theorem report_polled (s : LoopState κ) (c : κ) (events : BitVec 32) :
    Polled s { s.setChannel c { s.channel c with revents := events } with
      activeChannels := s.activeChannels ++ [c] } := by
  refine ⟨fun d => ?_, rfl, rfl, rfl, rfl⟩
  by_cases hdc : d = c
  · subst hdc
    exact ⟨events, update_self _ _ _⟩
  · exact ⟨(s.channel d).revents, update_of_ne hdc _ _⟩

theorem pollLoop_polled (evs : List (Int × BitVec 32)) {s : LoopState κ}
    (h : EpollPoller.pollLoop fd s evs = some s') : Polled s s' := by
  induction evs generalizing s with
  | nil => exact Option.some.inj h ▸ .refl s
  | cons e evs ih =>
    obtain ⟨f, events⟩ := e
    simp only [EpollPoller.pollLoop] at h
    split at h
    · cases h
    · rename_i event c hk
      split at h
      · exact (report_polled s c events).trans (ih h)
      · cases h

theorem poll_polled {result : Option (List (Int × BitVec 32))} (h : EpollPoller.poll fd s result = some s') :
    Polled s s' := by
  cases result with
  | none => exact Option.some.inj h ▸ .refl s
  | some evs =>
    obtain ⟨t, ht, rfl⟩ := Option.map_eq_some_iff.1 h
    have hp := pollLoop_polled evs ht
    split
    · exact ⟨hp.channel, hp.channels, hp.kernel, hp.eventHandling, hp.failed⟩
    · exact hp

/-! ## Every operation keeps the agreement -/

namespace Mapped

/-- An operation on `c` whose descriptor is its own or free in `channels_` before,
and that leaves `m` there. -/
theorem set (ch : Channel) {m : Option κ} {k : InterestSet κ} {failed : List (EpollOp × Int × Errno)} (hi : Mapped fd s)
    (hm : ∀ d, s.channels (fd c) = some d → d = c)
    (hflag : m = some c ∧ (ch.flag = .kAdded ∨ ch.flag = .kDeleted) ∨ m = none ∧ ch.flag = .kNew)
    (hadded : ch.flag = .kAdded ↔ ch.events ≠ kNoneEvent) (hlooped : ch.addedToLoop = true ↔ ch.flag ≠ .kNew)
    (hk : ∀ f i, k f = some i → fd i.ptr = f) :
    Mapped fd { s with
      channel := update s.channel c ch
      channels := update s.channels (fd c) m
      kernel := k
      failed := failed } := by
  refine ⟨?_, fun f d hd => ?_, hk, fun d => ?_, fun d => ?_, fun d => ?_, hi.not_handling⟩
  · refine mapped_update hi.mapped_iff hm (fun d hd => ?_) ?_ fun d hdc => ?_
    · rcases hflag with ⟨rfl, -⟩ | ⟨rfl, -⟩
      · exact (Option.some.inj hd).symm
      · cases hd
    · simp only [update_self]
      rcases hflag with ⟨rfl, hf⟩ | ⟨rfl, hf⟩ <;> simp [hf]
    · simp only [update_of_ne hdc]
  · dsimp only at hd
    by_cases hf : f = fd c
    · subst hf
      rw [update_self] at hd
      rcases hflag with ⟨rfl, -⟩ | ⟨rfl, -⟩
      · rw [Option.some.inj hd]
      · cases hd
    · rw [update_of_ne hf] at hd
      exact hi.mapped_fd f d hd
  · by_cases hdc : d = c
    · subst hdc
      simpa only [update_self] using hadded
    · simpa only [ne_eq, hdc, not_false_eq_true, update_of_ne] using hi.added_iff d
  · by_cases hdc : d = c
    · subst hdc
      simpa only [update_self] using hlooped
    · simpa only [ne_eq, hdc, not_false_eq_true, update_of_ne] using hi.looped_iff d
  · by_cases hdc : d = c
    · subst hdc
      simp only [update_self]
      rcases hflag with ⟨-, hf | hf⟩ | ⟨-, hf⟩ <;> simp [hf]
    · simpa only [ne_eq, hdc, not_false_eq_true, update_of_ne] using hi.flag_lt d

omit [DecidableEq κ] in
/-- What `poll` writes is not looked at. -/
theorem polled (hi : Mapped fd s) (h : Polled s s') : Mapped fd s' := by
  have hch : ∀ c, (s'.channel c).flag = (s.channel c).flag ∧ (s'.channel c).events = (s.channel c).events ∧
      (s'.channel c).addedToLoop = (s.channel c).addedToLoop := by
    intro c
    obtain ⟨r, hr⟩ := h.channel c
    rw [hr]
    exact ⟨rfl, rfl, rfl⟩
  refine ⟨fun c => ?_, fun f c => ?_, fun f i => ?_, fun c => ?_, fun c => ?_, fun c => ?_, ?_⟩
  · rw [h.channels, (hch c).1]
    exact hi.mapped_iff c
  · rw [h.channels]
    exact hi.mapped_fd f c
  · rw [h.kernel]
    exact hi.ptr_fd f i
  · rw [(hch c).1, (hch c).2.1]
    exact hi.added_iff c
  · rw [(hch c).1, (hch c).2.2]
    exact hi.looped_iff c
  · rw [(hch c).1]
    exact hi.flag_lt c
  · rw [h.eventHandling]
    exact hi.not_handling

end Mapped

omit [DecidableEq κ] in
theorem Answer.ptr_fd {k₀ k : InterestSet κ} {failed₀ failed : List (EpollOp × Int × Errno)} {op : EpollOp}
    {e : BitVec 32} (h : Answer k₀ failed₀ op (fd c) ⟨e, c⟩ k failed) (hk : ∀ f i, k₀ f = some i → fd i.ptr = f)
    (f : Int) (i : EpollEvent κ) (hf : k f = some i) : fd i.ptr = f := by
  cases h with
  | error e => exact hk f i hf
  | ok hok =>
    obtain ⟨rfl, -⟩ := epollCtl_ok hok
    by_cases hfc : f = fd c
    · subst hfc
      rw [update_self] at hf
      split at hf
      · cases hf
      · rw [← Option.some.inj hf]
    · rw [update_of_ne hfc] at hf
      exact hk f i hf

theorem changeEvents_mapped {f : BitVec 32 → BitVec 32} (hi : Mapped fd s)
    (h : Channel.changeEvents fd fault s c f = some s') : Mapped fd s' := by
  obtain ⟨hm, op, flag, hctl, k, failed, hk, rfl⟩ := changeEvents_ctl hi rfl h
  cases hctl with
  | add _ he | mod _ he =>
    exact hi.set ((s.channel c).registered _ .kAdded) hm (.inl ⟨rfl, .inl rfl⟩) (iff_of_true rfl he)
      (by simp [Channel.registered]) (hk.ptr_fd hi.ptr_fd)
  | del _ he =>
    exact hi.set ((s.channel c).registered _ .kDeleted) hm (.inl ⟨rfl, .inr rfl⟩)
      (by simp [Channel.registered, he]) (by simp [Channel.registered]) (hk.ptr_fd hi.ptr_fd)

theorem remove_mapped (hi : Mapped fd s) (h : Channel.remove fd fault s c = some s') : Mapped fd s' := by
  obtain ⟨hf, rfl⟩ := remove_deleted hi h
  have hm := (hi.mapped_iff c).2 (.inr hf)
  have he : (s.channel c).events = kNoneEvent := by
    by_contra he
    exact absurd ((hi.added_iff c).2 he) (by simp [hf])
  exact hi.set { s.channel c with flag := .kNew, addedToLoop := false }
    (fun d hd => (Option.some.inj (hm.symm.trans hd)).symm) (.inr ⟨rfl, rfl⟩) (by simp [he]) (by simp) hi.ptr_fd

theorem step_mapped {op : LoopOp κ} (hi : Mapped fd s) (h : s.step fd fault op = some s') : Mapped fd s' := by
  rcases step_cases h with ⟨c, f, -, h⟩ | ⟨c, -, h⟩ | ⟨result, -, -, h⟩
  · exact changeEvents_mapped hi h
  · exact remove_mapped hi h
  · exact hi.polled (poll_polled h)

theorem reachable_mapped (h : (FaultyLoop fd).Reachable s) : Mapped fd s := by
  refine h.inv (I := Mapped fd) (fun t ht => ?_) fun _ _ _ hi hs => step_mapped hi hs
  obtain rfl : t = .init := ht
  exact init_mapped

/-! ## Which channel `channels_` holds -/

/-- `EventLoop::hasChannel`. -/
def EventLoop.hasChannel (fd : κ → Int) (s : LoopState κ) (c : κ) : Bool := EpollPoller.hasChannel fd s c

/-- Whether channel `c` is added after an operation; `added` says whether it is before. -/
def LoopOp.adds (c : κ) (added : Bool) (op : LoopOp κ) : Bool :=
  match op.change, op with
  | some (d, _), _ => if d = c then true else added
  | none, .remove d => if d = c then false else added
  | none, _ => added

/-- In the history `as`, channel `c` was added by an update and not removed since. -/
def Added (as : List (LoopOp κ × Option Errno)) (c : κ) : Bool := as.foldl (fun added a => a.1.adds c added) false

omit [DecidableEq κ] in
/-- `hasChannel` looks for any channel of the descriptor. -/
theorem hasChannel_iff_exists (hi : Mapped fd s) :
    EventLoop.hasChannel fd s c = true ↔ ∃ d, fd d = fd c ∧ (s.channel d).flag ≠ .kNew := by
  rw [EventLoop.hasChannel, EpollPoller.hasChannel, Option.isSome_iff_exists]
  constructor
  · rintro ⟨d, hd⟩
    have hfd := hi.mapped_fd _ _ hd
    exact ⟨d, hfd, (hi.mapped_iff_ne d).1 (hfd ▸ hd)⟩
  · rintro ⟨d, hfd, hd⟩
    exact ⟨d, hfd ▸ (hi.mapped_iff_ne d).2 hd⟩

theorem step_adds {op : LoopOp κ} (hi : Mapped fd s) (h : s.step fd fault op = some s') (d : κ) :
    (s'.channel d).flag ≠ .kNew ↔ op.adds d (decide ((s.channel d).flag ≠ .kNew)) = true := by
  rcases step_cases h with ⟨c, f, hop, h⟩ | ⟨c, rfl, h⟩ | ⟨result, rfl, -, h⟩
  · obtain ⟨-, op', flag, hctl, k, failed, -, rfl⟩ := changeEvents_ctl hi rfl h
    have hflag : flag ≠ .kNew := by cases hctl <;> simp
    by_cases hdc : c = d
    · subst hdc
      simp [LoopOp.adds, hop, Channel.registered, hflag]
    · simp [LoopOp.adds, hop, hdc, update_of_ne (Ne.symm hdc)]
  · obtain ⟨-, rfl⟩ := remove_deleted hi h
    by_cases hdc : c = d
    · subst hdc
      simp [LoopOp.adds, LoopOp.change]
    · simp [LoopOp.adds, LoopOp.change, hdc, update_of_ne (Ne.symm hdc)]
  · obtain ⟨r, hr⟩ := (poll_polled h).channel d
    simp [hr, LoopOp.adds, LoopOp.change]

theorem run_adds {as : List (LoopOp κ × Option Errno)} {s : LoopState κ} (hi : Mapped fd s)
    (h : (FaultyLoop fd).run s as = some s') (d : κ) :
    (s'.channel d).flag ≠ .kNew ↔
      as.foldl (fun added a => a.1.adds d added) (decide ((s.channel d).flag ≠ .kNew)) = true := by
  induction as generalizing s with
  | nil =>
    obtain rfl := Option.some.inj h
    simp
  | cons a as ih =>
    obtain ⟨t, ht, hr⟩ := Lts.System.run_cons.1 h
    have hstep : decide ((t.channel d).flag ≠ .kNew) = a.1.adds d (decide ((s.channel d).flag ≠ .kNew)) := by
      rw [Bool.eq_iff_iff, decide_eq_true_iff]
      exact step_adds hi ht d
    rw [ih (step_mapped hi ht) hr, List.foldl_cons, hstep]

theorem added_iff_flag {as : List (LoopOp κ × Option Errno)} (h : (FaultyLoop fd).run .init as = some s) (c : κ) :
    Added as c = true ↔ (s.channel c).flag ≠ .kNew := by
  rw [run_adds init_mapped h c]
  rfl

/-- After every history the flag of a channel says whether it is added, and
`hasChannel` says so exactly of the channels whose descriptor no other added
channel carries. -/
theorem hasChannel_iff {as : List (LoopOp κ × Option Errno)} (h : (FaultyLoop fd).run .init as = some s) (c : κ) :
    (Added as c = true ↔ (s.channel c).flag ≠ .kNew) ∧
      ((EventLoop.hasChannel fd s c = true ↔ Added as c = true) ↔
        ∀ d, d ≠ c → fd d = fd c → Added as d = false) := by
  have hi := reachable_mapped (.run (.init rfl) h)
  refine ⟨added_iff_flag h c, ?_⟩
  simp only [← Bool.not_eq_true, added_iff_flag h, hasChannel_iff_exists hi]
  constructor
  · intro hc d hdc hfd hd
    exact hdc (hi.eq_of_fd (hc.1 ⟨d, hfd, hd⟩) hd hfd)
  · intro hd
    refine ⟨?_, fun hc => ⟨c, rfl, hc⟩⟩
    rintro ⟨d, hfd, hf⟩
    by_cases hdc : d = c
    · exact hdc ▸ hf
    · exact absurd hf (hd d hdc hfd)

/-- Two channels of different descriptors, one added and removed again. -/
theorem hasChannel_iff_two : ∃ s, (FaultyLoop fun c : Bool => if c then 4 else 5).run .init
      [(.enableReading true, none), (.enableWriting false, some .ENOMEM), (.disableAll true, none),
        (.remove true, none)] = some s ∧
    EventLoop.hasChannel (fun c : Bool => if c then 4 else 5) s false = true := by
  obtain ⟨s, hs⟩ : ∃ s, (FaultyLoop fun c : Bool => if c then 4 else 5).run .init
      [(.enableReading true, none), (.enableWriting false, some .ENOMEM), (.disableAll true, none),
        (.remove true, none)] = some s := ⟨_, rfl⟩
  refine ⟨s, hs, ((hasChannel_iff hs false).2.2 ?_).2 rfl⟩
  intro d hd
  cases d with
  | true => exact fun _ => rfl
  | false => exact absurd rfl hd

/-- Two channels with the descriptor 5: one is added, and `hasChannel` says that
the other is there. -/
theorem hasChannel_of_other : ∃ s, (FaultyLoop fun _ : Bool => 5).run .init [(.enableReading true, none)] = some s ∧
    EventLoop.hasChannel (fun _ : Bool => 5) s false = true ∧ Added [(.enableReading true, none)] false = false ∧
    (s.channel false).flag = .kNew :=
  ⟨_, rfl, rfl, rfl, rfl⟩

end Ycnt.Net

import Ycnt.Net.EpollPoller.Mapped
/-!
# The poller and `eventHandling_`

`eventHandling_` of a channel is for its destructor: no operation on channels and
no poll looks at it.
-/

namespace Ycnt.Net

open Function Linux

variable {κ : Type*} [DecidableEq κ]

/-- Without `eventHandling_` of the channels, which only `~Channel` looks at. -/
def LoopState.settled (s : LoopState κ) : LoopState κ :=
  { s with channel := fun c => { s.channel c with eventHandling := false } }

variable {fd : κ → Int} {fault : Option Errno}

theorem settled_setChannel (s : LoopState κ) (c : κ) (ch : Channel) :
    (s.setChannel c ch).settled = s.settled.setChannel c { ch with eventHandling := false } := by
  simp only [LoopState.settled, LoopState.setChannel, LoopState.mk.injEq, and_true]
  funext d
  by_cases hdc : d = c
  · subst hdc
    simp only [update_self]
  · simp only [update_of_ne hdc]

/-- A change of a channel that does not look at `eventHandling_`. -/
theorem modify_settled (s : LoopState κ) (c : κ) {g : Channel → Channel}
    (hg : ∀ ch, { g ch with eventHandling := false } = g { ch with eventHandling := false }) :
    (s.setChannel c (g (s.channel c))).settled = s.settled.setChannel c (g (s.settled.channel c)) := by
  rw [settled_setChannel, hg]
  rfl

omit [DecidableEq κ] in
theorem updateInEpoll_settled (s : LoopState κ) (c : κ) (op : EpollOp) :
    (EpollPoller.updateInEpoll fd fault s c op).settled = EpollPoller.updateInEpoll fd fault s.settled c op := by
  have hevents : (s.settled.channel c).events = (s.channel c).events := rfl
  have hkernel : s.settled.kernel = s.kernel := rfl
  unfold EpollPoller.updateInEpoll
  rw [hevents, hkernel]
  cases fault with
  | some e => rfl
  | none => cases epollCtl s.kernel op (fd c) ⟨(s.channel c).events, c⟩ <;> rfl

theorem setFlag_settled (s : LoopState κ) (c : κ) (flag : Flag) :
    (s.setFlag c flag).settled = s.settled.setFlag c flag :=
  modify_settled s c (g := fun ch => { ch with flag := flag }) fun _ => rfl

theorem updateChannel_settled (s : LoopState κ) (c : κ) :
    (EpollPoller.updateChannel fd fault s c).map LoopState.settled = EpollPoller.updateChannel fd fault s.settled c := by
  have hflag : (s.settled.channel c).flag = (s.channel c).flag := rfl
  have hnone : (s.settled.channel c).isNoneEvent = (s.channel c).isNoneEvent := rfl
  have hch : s.settled.channels = s.channels := rfl
  unfold EpollPoller.updateChannel
  rw [hflag, hnone, hch]
  cases (s.channel c).flag with
  | kNew =>
    dsimp only
    split
    · rw [Option.map_some, updateInEpoll_settled, setFlag_settled]
      rfl
    · rfl
  | kDeleted =>
    dsimp only
    split
    · rw [Option.map_some, updateInEpoll_settled, setFlag_settled]
    · rfl
  | kAdded =>
    dsimp only
    split
    · split
      · rw [Option.map_some, setFlag_settled, updateInEpoll_settled]
      · rw [Option.map_some, updateInEpoll_settled]
    · rfl
  | NUM_OF_FLAGS => rfl

theorem changeEvents_settled (s : LoopState κ) (c : κ) (f : BitVec 32 → BitVec 32) :
    (Channel.changeEvents fd fault s c f).map LoopState.settled = Channel.changeEvents fd fault s.settled c f := by
  unfold Channel.changeEvents Channel.update EventLoop.updateChannel
  rw [updateChannel_settled, modify_settled _ c (g := fun ch => { ch with addedToLoop := true }) fun _ => rfl,
    modify_settled s c (g := fun ch => { ch with events := f ch.events }) fun _ => rfl]

theorem removeChannel_settled (s : LoopState κ) (c : κ) :
    (EpollPoller.removeChannel fd fault s c).map LoopState.settled = EpollPoller.removeChannel fd fault s.settled c := by
  have hflag : (s.settled.channel c).flag = (s.channel c).flag := rfl
  have hnone : (s.settled.channel c).isNoneEvent = (s.channel c).isNoneEvent := rfl
  have hch : s.settled.channels = s.channels := rfl
  unfold EpollPoller.removeChannel
  rw [hflag, hnone, hch]
  dsimp only
  split
  · rw [Option.map_some, setFlag_settled]
    split
    · rw [updateInEpoll_settled]
      rfl
    · rfl
  · rfl

theorem remove_settled (s : LoopState κ) (c : κ) :
    (Channel.remove fd fault s c).map LoopState.settled = Channel.remove fd fault s.settled c := by
  have hnone : (s.settled.channel c).isNoneEvent = (s.channel c).isNoneEvent := rfl
  unfold Channel.remove EventLoop.removeChannel
  rw [hnone]
  split
  · split
    · rw [if_pos (by assumption)]
      rfl
    · rw [if_neg (by assumption), removeChannel_settled,
        modify_settled s c (g := fun ch => { ch with addedToLoop := false }) fun _ => rfl]
  · rfl

theorem pollLoop_settled (evs : List (Int × BitVec 32)) (s : LoopState κ) :
    (EpollPoller.pollLoop fd s evs).map LoopState.settled = EpollPoller.pollLoop fd s.settled evs := by
  induction evs generalizing s with
  | nil => rfl
  | cons e evs ih =>
    obtain ⟨f, events⟩ := e
    have hkernel : s.settled.kernel = s.kernel := rfl
    have hch : s.settled.channels = s.channels := rfl
    simp only [EpollPoller.pollLoop]
    rw [hkernel, hch]
    cases s.kernel f with
    | none => rfl
    | some event =>
      dsimp only
      split
      · rw [ih]
        congr 1
        have hset := modify_settled s event.ptr (g := fun ch => { ch with revents := events }) fun _ => rfl
        exact congrArg (fun t : LoopState κ => { t with activeChannels := s.activeChannels ++ [event.ptr] }) hset
      · rfl

theorem poll_settled (s : LoopState κ) (result : Option (List (Int × BitVec 32))) :
    (EpollPoller.poll fd s result).map LoopState.settled = EpollPoller.poll fd s.settled result := by
  cases result with
  | none => rfl
  | some evs =>
    have hsize : s.settled.eventsSize = s.eventsSize := rfl
    simp only [EpollPoller.poll]
    rw [hsize, ← pollLoop_settled, Option.map_map, Option.map_map]
    congr 1
    funext t
    simp only [comp_apply]
    split <;> rfl

theorem step_settled (s : LoopState κ) (op : LoopOp κ) :
    (s.step fd fault op).map LoopState.settled = s.settled.step fd fault op := by
  cases hop : op.change with
  | some cf =>
    rw [step_change (c := cf.1) (f := cf.2) hop, step_change (c := cf.1) (f := cf.2) hop, changeEvents_settled]
  | none =>
    cases op with
    | remove c => exact remove_settled s c
    | poll result =>
      have hreports : ∀ evs, s.settled.Reports evs ↔ s.Reports evs := fun _ => Iff.rfl
      simp only [LoopState.step, hreports]
      split
      · exact poll_settled s result
      · rfl
    | _ => cases hop

omit [DecidableEq κ] in
/-- What the poller keeps does not depend on `eventHandling_` either. -/
theorem settled_mapped {s : LoopState κ} (h : Mapped fd s.settled) : Mapped fd s :=
  ⟨h.mapped_iff, h.mapped_fd, h.ptr_fd, h.added_iff, h.looped_iff, h.flag_lt, h.not_handling⟩

end Ycnt.Net

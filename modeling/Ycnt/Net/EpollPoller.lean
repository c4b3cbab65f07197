import Mathlib.Data.List.Infix
import Ycnt.Lib.Lts
import Ycnt.Lib.Linux
/-!
# Channels and the poller of one event loop

`Channel.cpp`, `EpollPoller.cpp` and the functions of `EventLoop.cpp` between
them, called from the loop thread. `κ` stands for the addresses of the
`Channel` objects; several of them may carry one descriptor.

A failed `assert` is `none`. A failed `epoll_ctl` is only logged, so the model
keeps the list of the failed calls. `fault` is the kernel's answer to the call
where it fails for a reason of its own (`ENOMEM`, `ENOSPC`, ..).
-/

namespace Ycnt.Net

open Function Linux

/-- `Channel::Flag`. -/
inductive Flag where
  | kNew
  | kAdded
  | kDeleted
  | NUM_OF_FLAGS
  deriving DecidableEq, Repr

def POLLIN : BitVec 32 := 0x001

def POLLPRI : BitVec 32 := 0x002

def POLLOUT : BitVec 32 := 0x004

def kNoneEvent : BitVec 32 := 0

def kReadEvent : BitVec 32 := POLLIN ||| POLLPRI

def kWriteEvent : BitVec 32 := POLLOUT

/-- The fields of a `Channel` that change; `Channel` constructs this. -/
structure Channel where
  events : BitVec 32 := 0
  revents : BitVec 32 := 0
  flag : Flag := .kNew
  eventHandling : Bool := false
  addedToLoop : Bool := false

def Channel.isNoneEvent (c : Channel) : Bool := c.events == kNoneEvent

/-- `EpollPoller::kInitEventsSize`. -/
def kInitEventsSize : Nat := 16

/-- One `EventLoop` with its poller and its channels, and the kernel's interest set. -/
structure LoopState (κ : Type*) where
  channel : κ → Channel
  /-- `channels_`, by descriptor. -/
  channels : Int → Option κ
  kernel : InterestSet κ
  /-- `events_.size()`. -/
  eventsSize : Nat
  eventHandling : Bool
  activeChannels : List κ
  currentActiveChannel : Option κ
  /-- The calls of `epoll_ctl` that failed. -/
  failed : List (EpollOp × Int × Errno)

variable {κ : Type*} [DecidableEq κ]

namespace LoopState

/-- A loop whose channels have just been constructed. -/
def init : LoopState κ where
  channel _ := {}
  channels _ := none
  kernel _ := none
  eventsSize := kInitEventsSize
  eventHandling := false
  activeChannels := []
  currentActiveChannel := none
  failed := []

def setChannel (s : LoopState κ) (c : κ) (ch : Channel) : LoopState κ :=
  { s with channel := update s.channel c ch }

def setFlag (s : LoopState κ) (c : κ) (flag : Flag) : LoopState κ :=
  s.setChannel c { s.channel c with flag := flag }

/-- What `epoll_wait` can report: registered descriptors, each once, as many as `events_` holds. -/
def Reports (s : LoopState κ) (evs : List (Int × BitVec 32)) : Prop :=
  (∀ e ∈ evs, (s.kernel e.1).isSome) ∧ (evs.map (·.1)).Nodup ∧ evs.length ≤ s.eventsSize

omit [DecidableEq κ] in
instance (s : LoopState κ) (evs : List (Int × BitVec 32)) : Decidable (Reports s evs) :=
  inferInstanceAs (Decidable (_ ∧ _ ∧ _))

end LoopState

variable (fd : κ → Int) (fault : Option Errno) (s : LoopState κ) (c : κ)

namespace EpollPoller

def updateInEpoll (op : EpollOp) : LoopState κ :=
  match fault with
  | some e => { s with failed := s.failed ++ [(op, fd c, e)] }
  | none =>
    match epollCtl s.kernel op (fd c) ⟨(s.channel c).events, c⟩ with
    | .ok kernel => { s with kernel := kernel }
    | .error e => { s with failed := s.failed ++ [(op, fd c, e)] }

def updateChannel : Option (LoopState κ) :=
  match (s.channel c).flag with
  | .kNew =>
    if s.channels (fd c) = none ∧ (s.channel c).isNoneEvent = false then
      let s := { s with channels := update s.channels (fd c) (some c) }
      some (updateInEpoll fd fault (s.setFlag c .kAdded) c .ADD)
    else none
  | .kDeleted =>
    if s.channels (fd c) = some c ∧ (s.channel c).isNoneEvent = false then
      some (updateInEpoll fd fault (s.setFlag c .kAdded) c .ADD)
    else none
  | .kAdded =>
    if s.channels (fd c) = some c then
      if (s.channel c).isNoneEvent then some ((updateInEpoll fd fault s c .DEL).setFlag c .kDeleted)
      else some (updateInEpoll fd fault s c .MOD)
    else none
  | .NUM_OF_FLAGS => some s

def removeChannel : Option (LoopState κ) :=
  let flag := (s.channel c).flag
  if s.channels (fd c) = some c ∧ (s.channel c).isNoneEvent = true ∧ flag ≠ .kNew then
    let s := { s with channels := update s.channels (fd c) none }
    let s := if flag = .kAdded then updateInEpoll fd fault s c .DEL else s
    some (s.setFlag c .kNew)
  else none

omit [DecidableEq κ] in
def hasChannel : Bool := (s.channels (fd c)).isSome

/-- The loop of `poll` over the reported descriptors and masks; `data.ptr` is
what the kernel keeps for the descriptor. -/
def pollLoop (s : LoopState κ) : List (Int × BitVec 32) → Option (LoopState κ)
  | [] => some s
  | (f, events) :: rest =>
    match s.kernel f with
    | none => none
    | some ⟨_, c⟩ =>
      if s.channels (fd c) = some c then
        pollLoop { s.setChannel c { s.channel c with revents := events } with
          activeChannels := s.activeChannels ++ [c] } rest
      else none

/-- `result` is what `epoll_wait` reports, `none` an error. -/
def poll (result : Option (List (Int × BitVec 32))) : Option (LoopState κ) :=
  match result with
  | none => some s
  | some evs =>
    (pollLoop fd s evs).map fun s' =>
      if evs ≠ [] ∧ evs.length = s.eventsSize then { s' with eventsSize := s.eventsSize * 2 } else s'

end EpollPoller

namespace EventLoop

def updateChannel : Option (LoopState κ) := EpollPoller.updateChannel fd fault s c

/-- While the loop handles events, only the channel it is at may be removed
from among those of this iteration. -/
def removeChannel : Option (LoopState κ) :=
  if s.eventHandling = true ∧ s.currentActiveChannel ≠ some c ∧ c ∈ s.activeChannels then none
  else EpollPoller.removeChannel fd fault s c

end EventLoop

namespace Channel

def update : Option (LoopState κ) :=
  EventLoop.updateChannel fd fault (s.setChannel c { s.channel c with addedToLoop := true }) c

/-- The functions that change the interest set `events_`: `f` is what they do to it. -/
def changeEvents (f : BitVec 32 → BitVec 32) : Option (LoopState κ) :=
  update fd fault (s.setChannel c { s.channel c with events := f (s.channel c).events }) c

def enableReading : Option (LoopState κ) := changeEvents fd fault s c (· ||| kReadEvent)

def disableReading : Option (LoopState κ) := changeEvents fd fault s c (· &&& ~~~ kReadEvent)

def enableWriting : Option (LoopState κ) := changeEvents fd fault s c (· ||| kWriteEvent)

def disableWriting : Option (LoopState κ) := changeEvents fd fault s c (· &&& ~~~ kWriteEvent)

def disableAll : Option (LoopState κ) := changeEvents fd fault s c fun _ => kNoneEvent

def remove : Option (LoopState κ) :=
  if (s.channel c).isNoneEvent then
    EventLoop.removeChannel fd fault (s.setChannel c { s.channel c with addedToLoop := false }) c
  else none

end Channel

/-- An operation of the loop thread on a channel, or a poll. -/
inductive LoopOp (κ : Type*) where
  | enableReading (c : κ)
  | enableWriting (c : κ)
  | disableReading (c : κ)
  | disableWriting (c : κ)
  | disableAll (c : κ)
  | remove (c : κ)
  | poll (result : Option (List (Int × BitVec 32)))

/-- One operation; `none` if an `assert` fails in it, or if `epoll_wait` cannot report this. -/
def LoopState.step : LoopOp κ → Option (LoopState κ)
  | .enableReading c => Channel.enableReading fd fault s c
  | .enableWriting c => Channel.enableWriting fd fault s c
  | .disableReading c => Channel.disableReading fd fault s c
  | .disableWriting c => Channel.disableWriting fd fault s c
  | .disableAll c => Channel.disableAll fd fault s c
  | .remove c => Channel.remove fd fault s c
  | .poll result => if ∀ evs ∈ result, s.Reports evs then EpollPoller.poll fd s result else none

/-- Operations that meet the assertions, in any order, under a kernel that fails
`epoll_ctl` for no reason of its own. -/
def Loop : Lts.System (LoopState κ) (LoopOp κ) where
  init s := s = .init
  step s a := s.step fd none a

/-! ## What an operation does -/

theorem isNoneEvent_iff {ch : Channel} : ch.isNoneEvent = true ↔ ch.events = kNoneEvent := by
  simp [Channel.isNoneEvent]

/-- The fields a registration leaves a channel with. -/
def Channel.registered (ch : Channel) (e : BitVec 32) (flag : Flag) : Channel :=
  { ch with events := e, flag := flag, addedToLoop := true }

/-- The call of `epoll_ctl` for a channel with a given flag whose interest set
becomes `e`, and the flag it leaves. -/
inductive Ctl (flag : Flag) (e : BitVec 32) : EpollOp → Flag → Prop where
  | add : flag ≠ .kAdded → e ≠ kNoneEvent → Ctl flag e .ADD .kAdded
  | mod : flag = .kAdded → e ≠ kNoneEvent → Ctl flag e .MOD .kAdded
  | del : flag = .kAdded → e = kNoneEvent → Ctl flag e .DEL .kDeleted

theorem Ctl.flag_eq {flag flag₁ flag₂ : Flag} {e : BitVec 32} {op₁ op₂ : EpollOp} (h₁ : Ctl flag e op₁ flag₁)
    (h₂ : Ctl flag e op₂ flag₂) : flag₁ = flag₂ := by
  cases h₁ <;> cases h₂ <;> first | rfl | contradiction

omit [DecidableEq κ] in
/-- `updateInEpoll` writes what comes of `epoll_ctl`, and all it looks at is the
kernel's set and the channel's mask. -/
theorem updateInEpoll_eq {t u : LoopState κ} {op : EpollOp} (hk : t.kernel = u.kernel) (hf : t.failed = u.failed)
    (he : (t.channel c).events = (u.channel c).events) :
    EpollPoller.updateInEpoll fd fault t c op = { t with
      kernel := (EpollPoller.updateInEpoll fd fault u c op).kernel
      failed := (EpollPoller.updateInEpoll fd fault u c op).failed } := by
  unfold EpollPoller.updateInEpoll
  rw [hk, hf, he]
  cases fault with
  | some e => rw [← hk]
  | none =>
    cases epollCtl u.kernel op (fd c) ⟨(u.channel c).events, c⟩ with
    | ok k => rw [← hf]
    | error e => rw [← hk]

/-- A change of a channel's interest set to `e` makes one call of `epoll_ctl`,
and whatever comes of it the channel is in `channels_` afterwards. -/
theorem changeEvents_updates {s' : LoopState κ} {f : BitVec 32 → BitVec 32} {e : BitVec 32}
    (hlt : (s.channel c).flag ≠ .NUM_OF_FLAGS) (he : f (s.channel c).events = e)
    (h : Channel.changeEvents fd fault s c f = some s') :
    (∀ d, s.channels (fd c) = some d → d = c) ∧
    ∃ op flag, Ctl (s.channel c).flag e op flag ∧
      let answered := EpollPoller.updateInEpoll fd fault (s.setChannel c ((s.channel c).registered e flag)) c op
      s' = { s with
        channel := update s.channel c ((s.channel c).registered e flag)
        channels := update s.channels (fd c) (some c)
        kernel := answered.kernel
        failed := answered.failed } := by
  simp only [Channel.changeEvents, Channel.update, EventLoop.updateChannel, EpollPoller.updateChannel,
    LoopState.setFlag, LoopState.setChannel, update_self, update_idem, Channel.isNoneEvent, he,
    beq_eq_false_iff_ne, beq_iff_eq] at h
  have hown : ∀ d, s.channels (fd c) = some c → s.channels (fd c) = some d → d = c :=
    fun d hc hd => (Option.some.inj (hc.symm.trans hd)).symm
  -- The call finds the mask already changed, whatever else is still to come.
  have hctl : ∀ op flag flag' channels, EpollPoller.updateInEpoll fd fault
      { s with channel := update s.channel c ((s.channel c).registered e flag'), channels := channels } c op = _ :=
    fun op flag flag' channels => updateInEpoll_eq fd fault c (u := s.setChannel c ((s.channel c).registered e flag))
      rfl rfl (by simp [LoopState.setChannel, Channel.registered])
  cases hf : (s.channel c).flag with
  | kNew =>
    simp only [hf] at h
    split at h
    · rename_i hc
      refine ⟨fun d hd => by simp [hc.1] at hd, .ADD, .kAdded, .add (by simp) hc.2, ?_⟩
      exact (Option.some.inj h).symm.trans (hctl .ADD .kAdded .kAdded _)
    · cases h
  | kDeleted =>
    simp only [hf] at h
    split at h
    · rename_i hc
      refine ⟨fun d => hown d hc.1, .ADD, .kAdded, .add (by simp) hc.2, ?_⟩
      rw [← hc.1, update_eq_self]
      exact (Option.some.inj h).symm.trans (hctl .ADD .kAdded .kAdded _)
    · cases h
  | kAdded =>
    simp only [hf] at h
    split at h
    · rename_i hc
      split at h
      · rename_i he'
        refine ⟨fun d => hown d hc, .DEL, .kDeleted, .del rfl he', ?_⟩
        have hs : s' = LoopState.setFlag _ c .kDeleted := (Option.some.inj h).symm
        rw [← hc, update_eq_self, hs]
        refine (congrArg (LoopState.setFlag · c .kDeleted) (hctl .DEL .kDeleted .kAdded _)).trans ?_
        simp only [LoopState.setFlag, LoopState.setChannel, update_self, update_idem]
        rfl
      · rename_i he'
        refine ⟨fun d => hown d hc, .MOD, .kAdded, .mod rfl he', ?_⟩
        rw [← hc, update_eq_self]
        exact (Option.some.inj h).symm.trans (hctl .MOD .kAdded .kAdded _)
    · cases h
  | NUM_OF_FLAGS => exact absurd hf hlt

/-- Only a channel without interest that is still in `channels_` can be removed,
and the kernel is not asked. -/
theorem remove_updates {s' : LoopState κ} (hlt : (s.channel c).flag ≠ .NUM_OF_FLAGS)
    (hadded : (s.channel c).flag = .kAdded → (s.channel c).events ≠ kNoneEvent)
    (h : Channel.remove fd fault s c = some s') :
    (s.channel c).flag = .kDeleted ∧ s.channels (fd c) = some c ∧
      s' = { s with
        channel := update s.channel c { s.channel c with flag := .kNew, addedToLoop := false }
        channels := update s.channels (fd c) none } := by
  simp only [Channel.remove, EventLoop.removeChannel, EpollPoller.removeChannel, LoopState.setFlag,
    LoopState.setChannel, update_self] at h
  split at h
  · rename_i he
    split at h
    · cases h
    · split at h
      · rename_i hc
        cases hf : (s.channel c).flag with
        | kDeleted =>
          simp only [hf, reduceCtorEq, ite_false, update_self, update_idem, Option.some.injEq] at h
          exact ⟨rfl, hc.1, h.symm⟩
        | kNew => exact absurd hf hc.2.2
        | kAdded => exact absurd (isNoneEvent_iff.1 he) (hadded hf)
        | NUM_OF_FLAGS => exact absurd hf hlt
      · cases h
  · cases h

variable {fd fault s c}

/-- The channel whose interest set an operation changes, and what it does to it. -/
def LoopOp.change : LoopOp κ → Option (κ × (BitVec 32 → BitVec 32))
  | .enableReading c => some (c, (· ||| kReadEvent))
  | .enableWriting c => some (c, (· ||| kWriteEvent))
  | .disableReading c => some (c, (· &&& ~~~ kReadEvent))
  | .disableWriting c => some (c, (· &&& ~~~ kWriteEvent))
  | .disableAll c => some (c, fun _ => kNoneEvent)
  | .remove _ | .poll _ => none

theorem step_change {op : LoopOp κ} {f : BitVec 32 → BitVec 32} (h : op.change = some (c, f)) :
    s.step fd fault op = Channel.changeEvents fd fault s c f := by
  cases op <;> simp only [LoopOp.change, Option.some.injEq, Prod.mk.injEq, reduceCtorEq] at h <;>
    obtain ⟨rfl, rfl⟩ := h <;> rfl

/-- A step changes an interest set, removes a channel or polls. -/
theorem step_cases {s' : LoopState κ} {op : LoopOp κ} (h : s.step fd fault op = some s') :
    (∃ c f, op.change = some (c, f) ∧ Channel.changeEvents fd fault s c f = some s') ∨
    (∃ c, op = .remove c ∧ Channel.remove fd fault s c = some s') ∨
    ∃ result, op = .poll result ∧ (∀ evs ∈ result, s.Reports evs) ∧ EpollPoller.poll fd s result = some s' := by
  cases hc : op.change with
  | some cf => exact .inl ⟨cf.1, cf.2, rfl, step_change hc ▸ h⟩
  | none =>
    cases op with
    | remove c => exact .inr (.inl ⟨c, rfl, h⟩)
    | poll result =>
      simp only [LoopState.step, Option.ite_none_right_eq_some] at h
      exact .inr (.inr ⟨result, rfl, h⟩)
    | _ => cases hc

/-! ## Registration -/

/-- The channels' flags, `channels_` and the kernel agree. -/
structure Registered (fd : κ → Int) (s : LoopState κ) : Prop where
  kernel_of_added : ∀ c, (s.channel c).flag = .kAdded → s.kernel (fd c) = some ⟨(s.channel c).events, c⟩
  added_of_kernel : ∀ f i, s.kernel f = some i → fd i.ptr = f ∧ (s.channel i.ptr).flag = .kAdded
  added_events : ∀ c, (s.channel c).flag = .kAdded → (s.channel c).events ≠ kNoneEvent
  mapped_iff : ∀ c, s.channels (fd c) = some c ↔ (s.channel c).flag = .kAdded ∨ (s.channel c).flag = .kDeleted
  deleted_events : ∀ c, (s.channel c).flag = .kDeleted → (s.channel c).events = kNoneEvent
  looped_iff : ∀ c, (s.channel c).addedToLoop = true ↔ (s.channel c).flag ≠ .kNew
  flag_lt : ∀ c, (s.channel c).flag ≠ .NUM_OF_FLAGS
  none_failed : s.failed = []

omit [DecidableEq κ] in
/-- A channel that is not in the kernel's set, and whose descriptor is its own
or free in `channels_`: then its descriptor is not in the kernel's set. -/
theorem Registered.kernel_none (hi : Registered fd s) (hf : (s.channel c).flag ≠ .kAdded)
    (hm : ∀ d, s.channels (fd c) = some d → d = c) : s.kernel (fd c) = none := by
  cases hk : s.kernel (fd c) with
  | none => rfl
  | some i =>
    obtain ⟨hfd, hfl⟩ := hi.added_of_kernel _ _ hk
    have hi' := (hi.mapped_iff i.ptr).2 (.inl hfl)
    rw [hfd] at hi'
    exact absurd (hm _ hi' ▸ hfl) hf

omit [DecidableEq κ] in
theorem Registered.mapped_of_added (hi : Registered fd s) (hf : (s.channel c).flag = .kAdded) :
    s.channels (fd c) = some c := (hi.mapped_iff c).2 (.inl hf)

/-- What a change of a channel's interest set to `e` does: it registers the
channel, changes its mask, or takes it out of the kernel's set. -/
theorem changeEvents_cases {s' : LoopState κ} {f : BitVec 32 → BitVec 32} {e : BitVec 32} (hi : Registered fd s)
    (he : f (s.channel c).events = e) (h : Channel.changeEvents fd none s c f = some s') :
    -- Registered: the descriptor is free, or the channel's own deleted entry.
    ((s.channel c).flag ≠ .kAdded ∧ (∀ d, s.channels (fd c) = some d → d = c) ∧ e ≠ kNoneEvent ∧
      s' = { s with
        channel := update s.channel c ((s.channel c).registered e .kAdded)
        channels := update s.channels (fd c) (some c)
        kernel := update s.kernel (fd c) (some ⟨e, c⟩) }) ∨
    ((s.channel c).flag = .kAdded ∧ e ≠ kNoneEvent ∧
      s' = { s with
        channel := update s.channel c ((s.channel c).registered e .kAdded)
        kernel := update s.kernel (fd c) (some ⟨e, c⟩) }) ∨
    -- Taken out: the channel stays in `channels_`.
    ((s.channel c).flag = .kAdded ∧ e = kNoneEvent ∧
      s' = { s with
        channel := update s.channel c ((s.channel c).registered e .kDeleted)
        kernel := update s.kernel (fd c) none }) := by
  obtain ⟨hm, op, flag, hctl, hs⟩ := changeEvents_updates fd none s c (hi.flag_lt c) he h
  -- The kernel takes the call, since the flag tells what is in its set.
  simp only [EpollPoller.updateInEpoll, LoopState.setChannel, update_self, Channel.registered] at hs
  cases hctl with
  | add hf he' =>
    rw [epollCtl_add _ (hi.kernel_none hf hm)] at hs
    exact .inl ⟨hf, hm, he', hs⟩
  | mod hf he' =>
    rw [epollCtl_mod _ (hi.kernel_of_added c hf), ← hi.mapped_of_added hf, update_eq_self] at hs
    exact .inr (.inl ⟨hf, he', hs⟩)
  | del hf he' =>
    rw [epollCtl_del _ (hi.kernel_of_added c hf), ← hi.mapped_of_added hf, update_eq_self] at hs
    exact .inr (.inr ⟨hf, he', hs⟩)

/-- What the flag of channel `c` says of its other fields, of its entry `m` in
`channels_` and of the kernel's entry `k` for its descriptor. -/
inductive Entry (c : κ) (ch : Channel) : Option κ → Option (EpollEvent κ) → Prop where
  | added : ch.flag = .kAdded → ch.events ≠ kNoneEvent → ch.addedToLoop = true → Entry c ch (some c) (some ⟨ch.events, c⟩)
  | deleted : ch.flag = .kDeleted → ch.events = kNoneEvent → ch.addedToLoop = true → Entry c ch (some c) none
  | new : ch.flag = .kNew → ch.addedToLoop = false → Entry c ch none none

namespace Entry

variable {ch : Channel} {m : Option κ} {k : Option (EpollEvent κ)}

omit [DecidableEq κ] in
theorem kernel (h : Entry c ch m k) (hf : ch.flag = .kAdded) : k = some ⟨ch.events, c⟩ ∧ ch.events ≠ kNoneEvent := by
  cases h with
  | added _ he => exact ⟨rfl, he⟩
  | deleted hd => simp [hd] at hf
  | new hn => simp [hn] at hf

omit [DecidableEq κ] in
theorem added_of_kernel (h : Entry c ch m k) {i : EpollEvent κ} (hk : k = some i) : i.ptr = c ∧ ch.flag = .kAdded := by
  cases h with
  | added hf => exact ⟨by rw [← Option.some.inj hk], hf⟩
  | deleted => cases hk
  | new => cases hk

omit [DecidableEq κ] in
theorem mapped_iff (h : Entry c ch m k) : m = some c ↔ ch.flag = .kAdded ∨ ch.flag = .kDeleted := by
  cases h with
  | added hf => simp [hf]
  | deleted hf => simp [hf]
  | new hf => simp [hf]

omit [DecidableEq κ] in
theorem eq_of_mapped (h : Entry c ch m k) {d : κ} (hm : m = some d) : d = c := by
  cases h with
  | added => exact (Option.some.inj hm).symm
  | deleted => exact (Option.some.inj hm).symm
  | new => cases hm

omit [DecidableEq κ] in
theorem flag (h : Entry c ch m k) :
    (ch.flag = .kDeleted → ch.events = kNoneEvent) ∧ (ch.addedToLoop = true ↔ ch.flag ≠ .kNew) ∧
      ch.flag ≠ .NUM_OF_FLAGS := by
  cases h with
  | added hf _ ha => simp [hf, ha]
  | deleted hf he ha => simp [hf, he, ha]
  | new hf ha => simp [hf, ha]

end Entry

/-- `channels_` tells which channels have `P` when the entry of `c`'s descriptor,
which is `c`'s own or free, becomes `m`, if `m` tells it of `c`. -/
theorem mapped_update {channels : Int → Option κ} {P P' : κ → Prop} {m : Option κ}
    (hmap : ∀ d, channels (fd d) = some d ↔ P d) (hown : ∀ d, channels (fd c) = some d → d = c)
    (hm : ∀ d, m = some d → d = c) (hc : m = some c ↔ P' c) (hne : ∀ d, d ≠ c → (P' d ↔ P d)) (d : κ) :
    update channels (fd c) m (fd d) = some d ↔ P' d := by
  by_cases hdc : d = c
  · subst hdc
    rw [update_self]
    exact hc
  · rw [hne d hdc]
    by_cases hfd : fd d = fd c
    · rw [hfd, update_self]
      exact iff_of_false (fun h => hdc (hm d h)) fun h => hdc (hown d (hfd ▸ (hmap d).2 h))
    · rw [update_of_ne hfd]
      exact hmap d

/-- An operation on `c` that leaves an `Entry` behind keeps the agreement, if
`c`'s descriptor is its own or free in `channels_` before. -/
theorem Registered.set (ch : Channel) {m : Option κ} {k : Option (EpollEvent κ)} (hi : Registered fd s)
    (hm : ∀ d, s.channels (fd c) = some d → d = c) (hch : Entry c ch m k) :
    Registered fd { s with
      channel := update s.channel c ch
      channels := update s.channels (fd c) m
      kernel := update s.kernel (fd c) k } := by
  -- No other channel of this descriptor is in `channels_`.
  have hne : ∀ d, d ≠ c → (s.channel d).flag = .kAdded ∨ (s.channel d).flag = .kDeleted → fd d ≠ fd c := by
    intro d hd hf hfd
    exact hd (hm d (hfd ▸ (hi.mapped_iff d).2 hf))
  refine ⟨fun d hd => ?_, fun g i hg => ?_, fun d hd => ?_, ?_, fun d hd => ?_, fun d => ?_, fun d => ?_,
    hi.none_failed⟩
  · by_cases hdc : d = c
    · subst hdc
      simp only [update_self] at hd ⊢
      exact (hch.kernel hd).1
    · simp only [ne_eq, hdc, not_false_eq_true, update_of_ne] at hd ⊢
      rw [update_of_ne (hne d hdc (.inl hd))]
      exact hi.kernel_of_added d hd
  · dsimp only at hg ⊢
    by_cases hgc : g = fd c
    · subst hgc
      rw [update_self] at hg
      obtain ⟨rfl, hf⟩ := hch.added_of_kernel hg
      exact ⟨rfl, by rwa [update_self]⟩
    · rw [update_of_ne hgc] at hg
      obtain ⟨hfd, hfl⟩ := hi.added_of_kernel g i hg
      have hic : i.ptr ≠ c := fun h => hgc (h ▸ hfd).symm
      exact ⟨hfd, by rwa [update_of_ne hic]⟩
  · by_cases hdc : d = c
    · subst hdc
      simp only [update_self] at hd ⊢
      exact (hch.kernel hd).2
    · simp only [ne_eq, hdc, not_false_eq_true, update_of_ne] at hd ⊢
      exact hi.added_events d hd
  · refine mapped_update hi.mapped_iff hm (fun _ => hch.eq_of_mapped) ?_ fun d hdc => ?_
    · simpa only [update_self] using hch.mapped_iff
    · simp only [update_of_ne hdc]
  · by_cases hdc : d = c
    · subst hdc
      simp only [update_self] at hd ⊢
      exact hch.flag.1 hd
    · simp only [ne_eq, hdc, not_false_eq_true, update_of_ne] at hd ⊢
      exact hi.deleted_events d hd
  · by_cases hdc : d = c
    · subst hdc
      simpa only [update_self] using hch.flag.2.1
    · simpa only [ne_eq, hdc, not_false_eq_true, update_of_ne] using hi.looped_iff d
  · by_cases hdc : d = c
    · subst hdc
      simpa only [update_self] using hch.flag.2.2
    · simpa only [ne_eq, hdc, not_false_eq_true, update_of_ne] using hi.flag_lt d

omit [DecidableEq κ] in
theorem eq_of_mapped (hc : s.channels (fd c) = some c) (d : κ) (hd : s.channels (fd c) = some d) : d = c := by
  simpa [hc] using hd.symm

theorem changeEvents_inv {s' : LoopState κ} {f : BitVec 32 → BitVec 32} (hi : Registered fd s)
    (h : Channel.changeEvents fd none s c f = some s') : Registered fd s' := by
  rcases changeEvents_cases hi rfl h with ⟨-, hm, he, rfl⟩ | ⟨hf, he, rfl⟩ | ⟨hf, he, rfl⟩
  · exact hi.set _ hm (.added rfl he rfl)
  · have hc := hi.mapped_of_added hf
    have := hi.set ((s.channel c).registered _ .kAdded) (eq_of_mapped hc) (.added rfl he rfl)
    rwa [← hc, update_eq_self] at this
  · have hc := hi.mapped_of_added hf
    have := hi.set ((s.channel c).registered _ .kDeleted) (eq_of_mapped hc) (.deleted rfl he rfl)
    rwa [← hc, update_eq_self] at this

theorem remove_inv {s' : LoopState κ} (hi : Registered fd s) (h : Channel.remove fd none s c = some s') :
    Registered fd s' := by
  obtain ⟨hf, hc, rfl⟩ := remove_updates fd none s c (hi.flag_lt c) (hi.added_events c) h
  have hk := hi.kernel_none (by simp [hf]) (eq_of_mapped hc)
  have := hi.set { s.channel c with flag := .kNew, addedToLoop := false } (eq_of_mapped hc) (.new rfl rfl)
  rwa [← hk, update_eq_self] at this

/-- The assertions of `poll` hold whatever it is told, and the agreement does
not look at what it writes. -/
theorem pollLoop_inv (evs : List (Int × BitVec 32)) {s : LoopState κ} (hi : Registered fd s)
    (hr : ∀ e ∈ evs, (s.kernel e.1).isSome) :
    ∃ s', EpollPoller.pollLoop fd s evs = some s' ∧ Registered fd s' := by
  induction evs generalizing s with
  | nil => exact ⟨s, rfl, hi⟩
  | cons e evs ih =>
    obtain ⟨i, hk⟩ := Option.isSome_iff_exists.1 (hr e (by simp))
    obtain ⟨-, hfl⟩ := hi.added_of_kernel _ _ hk
    have hc := hi.mapped_of_added hfl
    let ch := { s.channel i.ptr with revents := e.2 }
    have hi' := hi.set ch (eq_of_mapped hc) (.added hfl (hi.added_events _ hfl)
      ((hi.looped_iff _).2 (by simp [hfl])))
    rw [show some (⟨ch.events, i.ptr⟩ : EpollEvent κ) = s.kernel (fd i.ptr) from (hi.kernel_of_added _ hfl).symm,
      update_eq_self, ← hc, update_eq_self] at hi'
    have hi'' : Registered fd
        { s.setChannel i.ptr ch with activeChannels := s.activeChannels ++ [i.ptr] } := by
      cases hi'
      constructor <;> assumption
    obtain ⟨s', hs, hs'⟩ := ih hi'' fun e' he' => hr e' (by simp [he'])
    refine ⟨s', ?_, hs'⟩
    simp only [EpollPoller.pollLoop, hk, hc, if_pos]
    exact hs

theorem poll_inv {result : Option (List (Int × BitVec 32))} (hi : Registered fd s)
    (hr : ∀ evs ∈ result, s.Reports evs) :
    ∃ s', EpollPoller.poll fd s result = some s' ∧ Registered fd s' := by
  cases result with
  | none => exact ⟨s, rfl, hi⟩
  | some evs =>
    obtain ⟨s', hs, hs'⟩ := pollLoop_inv evs hi (hr evs rfl).1
    simp only [EpollPoller.poll, hs, Option.map_some]
    split
    · refine ⟨_, rfl, ?_⟩
      cases hs'
      constructor <;> assumption
    · exact ⟨s', rfl, hs'⟩

omit [DecidableEq κ] in
theorem init_inv : Registered fd (.init : LoopState κ) := by
  constructor <;> simp [LoopState.init]

theorem step_inv {s' : LoopState κ} {a : LoopOp κ} (hi : Registered fd s) (h : (Loop fd).step s a = some s') :
    Registered fd s' := by
  rcases step_cases h with ⟨c, f, -, h⟩ | ⟨c, -, h⟩ | ⟨result, -, hr, h⟩
  · exact changeEvents_inv hi h
  · exact remove_inv hi h
  · obtain ⟨t, ht, hi'⟩ := poll_inv hi hr
    exact Option.some.inj (ht.symm.trans h) ▸ hi'

theorem reachable_inv (h : (Loop fd).Reachable s) : Registered fd s :=
  h.inv (fun _ hs => hs ▸ init_inv) fun _ _ _ hi hs => step_inv hi hs

/-- In every reachable state the flag of each channel says whether the kernel's
set holds its descriptor for it, with which mask, whether `channels_` and
`addedToLoop_` know it; no `epoll_ctl` was rejected, and no assertion of `poll`
fails. A descriptor in the kernel's set may be there for another channel. -/
theorem registration_agrees (h : (Loop fd).Reachable s) :
    (∀ c, ((s.channel c).flag = .kAdded ↔ ∃ i, s.kernel (fd c) = some i ∧ i.ptr = c) ∧
      ((s.channel c).flag = .kAdded →
        s.kernel (fd c) = some ⟨(s.channel c).events, c⟩ ∧ (s.channel c).events ≠ kNoneEvent) ∧
      ((∀ d, fd d = fd c → d = c) → ((s.channel c).flag = .kAdded ↔ (s.kernel (fd c)).isSome)) ∧
      (s.channels (fd c) = some c ↔ (s.channel c).flag = .kAdded ∨ (s.channel c).flag = .kDeleted) ∧
      ((s.channel c).flag = .kDeleted → (s.channel c).events = kNoneEvent) ∧
      ((s.channel c).addedToLoop = true ↔ (s.channel c).flag ≠ .kNew)) ∧
    s.failed = [] ∧
    ∀ evs, s.Reports evs → (EpollPoller.poll fd s (some evs)).isSome := by
  have hi := reachable_inv h
  refine ⟨fun c => ⟨⟨fun hf => ⟨_, hi.kernel_of_added c hf, rfl⟩, ?_⟩, fun hf => ⟨hi.kernel_of_added c hf,
    hi.added_events c hf⟩, fun hd => ⟨fun hf => by simp [hi.kernel_of_added c hf], fun hk => ?_⟩, hi.mapped_iff c,
    hi.deleted_events c, hi.looped_iff c⟩, hi.none_failed, fun evs he => ?_⟩
  · rintro ⟨i, hk, rfl⟩
    exact (hi.added_of_kernel _ i hk).2
  · obtain ⟨i, hk⟩ := Option.isSome_iff_exists.1 hk
    obtain ⟨hfd, hfl⟩ := hi.added_of_kernel _ i hk
    exact hd _ hfd ▸ hfl
  · have hr : ∀ e ∈ some evs, s.Reports e := fun e h => Option.some.inj h ▸ he
    obtain ⟨s', hs, -⟩ := poll_inv hi hr
    rw [hs]
    rfl

/-- Two channels, one of them registered, then out of the kernel's set and in again. -/
theorem registration_agrees_two : ∃ s, (Loop fun c : Bool => if c then 4 else 5).run .init
      [.enableReading true, .enableWriting false, .disableAll false, .poll (some [(4, POLLIN)]), .enableReading false] =
        some s ∧
    (s.channel false).flag = .kAdded ∧ s.kernel 5 = some ⟨(s.channel false).events, false⟩ ∧ s.failed = [] := by
  obtain ⟨s, hs, hf⟩ : ∃ s, (Loop fun c : Bool => if c then 4 else 5).run .init
      [.enableReading true, .enableWriting false, .disableAll false, .poll (some [(4, POLLIN)]), .enableReading false] =
        some s ∧ (s.channel false).flag = .kAdded := ⟨_, rfl, rfl⟩
  obtain ⟨hc, hn, -⟩ := registration_agrees ((Lts.System.Reachable.init rfl).run hs)
  exact ⟨s, hs, hf, ((hc false).2.1 hf).1, hn⟩

/-- Two channels with the descriptor 5: one is registered, and the flag of the
other is `kNew` with its descriptor in the kernel's set. -/
theorem kNew_in_kernel : ∃ s, (Loop fun _ : Bool => 5).run .init [.enableReading true] = some s ∧
    ¬ ((s.channel false).flag = .kAdded ↔ (s.kernel 5).isSome) :=
  ⟨_, rfl, by decide⟩

end Ycnt.Net

import Ycnt.Base.Timestamp
import Ycnt.Net.EpollPoller.Settled
import Ycnt.Net.Acceptor
/-!
# What a channel does with its events

`Channel::handleEvent`. A callback may do what any code of the loop's thread may:
operate on its own channel and on others, set callbacks, call `handleEvent` again,
destroy channels. The calls under way are therefore a stack. A step is the next
`if` of the innermost call, the return of its callback, or something the callback
does.

Nothing sets `tied_`, so `tie_` is never locked.
-/

namespace Ycnt.Net

open Function Linux

def POLLERR : BitVec 32 := 0x008

def POLLHUP : BitVec 32 := 0x010

def POLLNVAL : BitVec 32 := 0x020

def POLLRDHUP : BitVec 32 := 0x2000

/-- The callbacks of a `Channel`, in the order in which `handleEventImpl` comes to them. -/
inductive Callback where
  | closeCallback
  | errorCallback
  | readCallback
  | writeCallback
  deriving DecidableEq, Repr

namespace Callback

def all : List Callback := [.closeCallback, .errorCallback, .readCallback, .writeCallback]

/-- What `revents_` is tested for before the callback. -/
def wanted (revents : BitVec 32) : Callback → Bool
  | .closeCallback => (revents &&& POLLHUP) != 0 && (revents &&& POLLIN) == 0
  | .errorCallback => (revents &&& (POLLERR ||| POLLNVAL)) != 0
  | .readCallback => (revents &&& (POLLIN ||| POLLPRI ||| POLLRDHUP)) != 0
  | .writeCallback => (revents &&& POLLOUT) != 0

/-- The argument that the callback is called with. -/
def argument (receiveTime : Timestamp) : Callback → Option Timestamp
  | .readCallback => some receiveTime
  | _ => none

end Callback

/-- Where a call of `handleEventImpl` stands. -/
inductive HandlePc where
  /-- Before the `if` of the callback. -/
  | test (k : Callback)
  /-- In the callback. -/
  | calling (k : Callback)
  /-- Before `eventHandling_ = false`. -/
  | leave
  deriving DecidableEq, Repr

namespace HandlePc

/-- What follows the `if` of a callback. -/
def after : Callback → HandlePc
  | .closeCallback => .test .errorCallback
  | .errorCallback => .test .readCallback
  | .readCallback => .test .writeCallback
  | .writeCallback => .leave

def isCalling : HandlePc → Bool
  | .calling _ => true
  | _ => false

end HandlePc

/-- A call of a callback. -/
structure CallbackCall (β : Type*) where
  callback : Callback
  function : β
  receiveTime : Option Timestamp

/-- A call of `handleEvent`. -/
structure Handling (κ β : Type*) where
  channel : κ
  receiveTime : Timestamp
  pc : HandlePc
  /-- `revents_` as the call found it. -/
  revents : BitVec 32
  /-- What was set as each callback when the call came to it. -/
  found : Callback → Option β
  calls : List (CallbackCall β)

/-- One `EventLoop` with its channels, their callbacks and the calls of `handleEvent`. -/
structure EventHandling (κ β : Type*) extends LoopState κ where
  callback : κ → Callback → Option β
  /-- The calls under way, the innermost first. -/
  handlings : List (Handling κ β)
  /-- The calls that have returned. -/
  handled : List (Handling κ β)
  destroyed : List κ

inductive HandlingLabel (κ β : Type*) where
  | handleEvent (c : κ) (receiveTime : Timestamp)
  /-- The innermost call goes on. -/
  | next
  /-- Its callback returns. -/
  | callbackReturns
  | channel (op : LoopOp κ) (fault : Option Errno)
  | setCallback (c : κ) (k : Callback) (cb : Option β)
  /-- `~Channel`. -/
  | destroy (c : κ)

/-- The channel that an operation is called on. -/
def LoopOp.channel? {κ : Type*} : LoopOp κ → Option κ
  | .enableReading c | .enableWriting c | .disableReading c | .disableWriting c | .disableAll c | .remove c => some c
  | .poll _ => none

variable {κ β : Type*} [DecidableEq κ]

/-- The `if` of callback `k`. -/
def Handling.test (h : Handling κ β) (k : Callback) (revents : BitVec 32) (cb : Option β) : Handling κ β :=
  match k.wanted revents, cb with
  | true, some f =>
    { h with
      pc := .calling k
      found := update h.found k cb
      calls := h.calls ++ [⟨k, f, k.argument h.receiveTime⟩] }
  | _, _ => { h with pc := .after k, found := update h.found k cb }

namespace EventHandling

variable (fd : κ → Int) (s : EventHandling κ β) (c : κ)

/-- Before any call of `handleEvent`, on channels that have just been constructed. -/
def create : EventHandling κ β where
  toLoopState := .init
  callback _ _ := none
  handlings := []
  handled := []
  destroyed := []

/-- Code that calls `handleEvent` runs, or a callback. -/
def callerRuns : Bool :=
  match s.handlings with
  | [] => true
  | h :: _ => h.pc.isCalling

/-- The running code may use the channel. -/
def mayUse : Bool := s.callerRuns && decide (c ∉ s.destroyed)

def setEventHandling (b : Bool) : LoopState κ := s.setChannel c { s.channel c with eventHandling := b }

def handleEvent (receiveTime : Timestamp) : EventHandling κ β :=
  { s with
    toLoopState := s.setEventHandling c true
    handlings := ⟨c, receiveTime, .test .closeCallback, (s.channel c).revents, fun _ => none, []⟩ :: s.handlings }

def next : Option (EventHandling κ β) :=
  match s.handlings with
  | [] => none
  | h :: hs =>
    match h.pc with
    | .test k =>
      some { s with handlings := h.test k (s.channel h.channel).revents (s.callback h.channel k) :: hs }
    | .calling _ => none
    | .leave =>
      some { s with
        toLoopState := s.setEventHandling h.channel false
        handlings := hs
        handled := s.handled ++ [h] }

omit [DecidableEq κ] in
def callbackReturns : Option (EventHandling κ β) :=
  match s.handlings with
  | [] => none
  | h :: hs =>
    match h.pc with
    | .calling k => some { s with handlings := { h with pc := .after k } :: hs }
    | _ => none

def step : HandlingLabel κ β → Option (EventHandling κ β)
  | .handleEvent c receiveTime => if s.mayUse c then some (s.handleEvent c receiveTime) else none
  | .next => s.next
  | .callbackReturns => s.callbackReturns
  | .channel op fault =>
    if s.callerRuns ∧ ∀ c ∈ op.channel?, c ∉ s.destroyed then
      (s.toLoopState.step fd fault op).map fun l => { s with toLoopState := l }
    else none
  | .setCallback c k cb =>
    if s.mayUse c then some { s with callback := update s.callback c (update (s.callback c) k cb) } else none
  | .destroy c =>
    if s.mayUse c ∧ (s.channel c).Destructible then some { s with destroyed := c :: s.destroyed } else none

end EventHandling

/-- Code of the loop's thread that uses the channels it has not destroyed, under a
kernel that may fail any `epoll_ctl`. -/
def HandlingLoop (β : Type*) (fd : κ → Int) : Lts.System (EventHandling κ β) (HandlingLabel κ β) where
  init s := s = .create
  step s a := s.step fd a

/-! ## What a step does -/

namespace EventHandling

variable {fd : κ → Int} {s s' : EventHandling κ β}

/-- The steps, with what they change. -/
inductive Step (fd : κ → Int) (s : EventHandling κ β) : HandlingLabel κ β → EventHandling κ β → Prop where
  | handleEvent {c : κ} {receiveTime : Timestamp} : s.callerRuns = true → c ∉ s.destroyed →
    Step fd s (.handleEvent c receiveTime) (s.handleEvent c receiveTime)
  | test {h : Handling κ β} {hs : List (Handling κ β)} {k : Callback} : s.handlings = h :: hs → h.pc = .test k →
    Step fd s .next
      { s with handlings := h.test k (s.channel h.channel).revents (s.callback h.channel k) :: hs }
  | leave {h : Handling κ β} {hs : List (Handling κ β)} : s.handlings = h :: hs → h.pc = .leave →
    Step fd s .next
      { s with
        toLoopState := s.setEventHandling h.channel false
        handlings := hs
        handled := s.handled ++ [h] }
  | callbackReturns {h : Handling κ β} {hs : List (Handling κ β)} {k : Callback} : s.handlings = h :: hs →
    h.pc = .calling k → Step fd s .callbackReturns { s with handlings := { h with pc := .after k } :: hs }
  | channel {op : LoopOp κ} {fault : Option Errno} {l : LoopState κ} : s.callerRuns = true →
    (∀ c ∈ op.channel?, c ∉ s.destroyed) → s.toLoopState.step fd fault op = some l →
    Step fd s (.channel op fault) { s with toLoopState := l }
  | setCallback {c : κ} {k : Callback} {cb : Option β} : s.callerRuns = true → c ∉ s.destroyed →
    Step fd s (.setCallback c k cb) { s with callback := update s.callback c (update (s.callback c) k cb) }
  | destroy {c : κ} : s.callerRuns = true → c ∉ s.destroyed → (s.channel c).Destructible →
    Step fd s (.destroy c) { s with destroyed := c :: s.destroyed }

theorem mayUse_iff {c : κ} : s.mayUse c = true ↔ s.callerRuns = true ∧ c ∉ s.destroyed := by
  simp [mayUse]

theorem step_inv {a : HandlingLabel κ β} (h : (HandlingLoop β fd).step s a = some s') : Step fd s a s' := by
  change s.step fd a = some s' at h
  cases a with
  | handleEvent c receiveTime =>
    simp only [step, Option.ite_none_right_eq_some, Option.some.injEq, mayUse_iff] at h
    obtain ⟨hu, rfl⟩ := h
    exact .handleEvent hu.1 hu.2
  | next =>
    simp only [step, next] at h
    split at h
    · cases h
    · rename_i hd hs heq
      cases hpc : hd.pc with
      | test k =>
        rw [hpc] at h
        cases h
        exact .test heq hpc
      | calling k =>
        rw [hpc] at h
        cases h
      | leave =>
        rw [hpc] at h
        cases h
        exact .leave heq hpc
  | callbackReturns =>
    simp only [step, callbackReturns] at h
    split at h
    · cases h
    · rename_i hd hs heq
      cases hpc : hd.pc with
      | calling k =>
        rw [hpc] at h
        cases h
        exact .callbackReturns heq hpc
      | test k | leave =>
        rw [hpc] at h
        cases h
  | channel op fault =>
    simp only [step, Option.ite_none_right_eq_some, Option.map_eq_some_iff] at h
    obtain ⟨hu, l, hl, rfl⟩ := h
    exact .channel hu.1 hu.2 hl
  | setCallback c k cb =>
    simp only [step, Option.ite_none_right_eq_some, Option.some.injEq, mayUse_iff] at h
    obtain ⟨hu, rfl⟩ := h
    exact .setCallback hu.1 hu.2
  | destroy c =>
    simp only [step, Option.ite_none_right_eq_some, Option.some.injEq, mayUse_iff] at h
    obtain ⟨⟨hu, hd⟩, rfl⟩ := h
    exact .destroy hu.1 hu.2 hd

/-! ## The poller does not notice -/

theorem setEventHandling_settled (s : EventHandling κ β) (c : κ) (b : Bool) :
    (s.setEventHandling c b).settled = s.settled := by
  rw [setEventHandling, settled_setChannel]
  simp only [LoopState.setChannel, LoopState.settled, LoopState.mk.injEq, and_true]
  exact update_eq_self c _

end EventHandling

/-- The operation on the poller that a step is. -/
def HandlingLabel.op? : HandlingLabel κ β → Option (LoopOp κ × Option Errno)
  | .channel op fault => some (op, fault)
  | _ => none

namespace EventHandling

variable {fd : κ → Int} {s s' : EventHandling κ β}

/-- To the poller, a run of code that handles events is a run of its operations on channels. -/
theorem run_settled {as : List (HandlingLabel κ β)} (h : (HandlingLoop β fd).run s as = some s') :
    (FaultyLoop fd).run s.settled (as.filterMap HandlingLabel.op?) = some s'.settled := by
  refine Lts.System.run_filterMap (f := fun s : EventHandling κ β => s.settled) (fun s a s' b hs ha => ?_)
    (fun s a s' hs ha => ?_) h
  · cases step_inv hs with
    | channel _ _ hl =>
      obtain rfl := Option.some.inj ha
      exact (step_settled _ _).symm.trans (congrArg (Option.map LoopState.settled) hl)
    | _ => cases ha
  · cases step_inv hs with
    | handleEvent => exact s.setEventHandling_settled _ true
    | leave => exact s.setEventHandling_settled _ false
    | channel => cases ha
    | _ => rfl

theorem mapped_of_reachable (h : (HandlingLoop β fd).Reachable s) : Mapped fd s.toLoopState := by
  have hsettled : (FaultyLoop fd).Reachable s.settled := by
    refine h.inv (I := fun s : EventHandling κ β => (FaultyLoop fd).Reachable s.settled) (fun s h0 => ?_)
      fun s a s' hi hs => ?_
    · obtain rfl : s = .create := h0
      exact .init rfl
    · have hrun : (HandlingLoop β fd).run s [a] = some s' := Lts.System.run_step hs rfl
      exact hi.run (run_settled hrun)
  exact settled_mapped (reachable_mapped hsettled)

end EventHandling

/-! ## Which callbacks are called -/

/-- The callbacks whose `if` a call has come to, apart from the one it is before. -/
def HandlePc.passed : HandlePc → List Callback
  | .test .closeCallback => []
  | .test .errorCallback | .calling .closeCallback => [.closeCallback]
  | .test .readCallback | .calling .errorCallback => [.closeCallback, .errorCallback]
  | .test .writeCallback | .calling .readCallback => [.closeCallback, .errorCallback, .readCallback]
  | .calling .writeCallback | .leave => Callback.all

/-- The call of `k` that its mask and what was set as `k` ask for. -/
def Handling.call? (h : Handling κ β) (k : Callback) : Option (CallbackCall β) :=
  if k.wanted h.revents then (h.found k).map fun f => ⟨k, f, k.argument h.receiveTime⟩ else none

/-- So far the call has called what it is asked for, in the order of the `if`s. -/
def Handling.InOrder (h : Handling κ β) : Prop := h.calls = h.pc.passed.filterMap h.call?

theorem HandlePc.passed_calling (k : Callback) : (HandlePc.calling k).passed = (HandlePc.test k).passed ++ [k] := by
  cases k <;> rfl

theorem HandlePc.passed_after (k : Callback) : (HandlePc.after k).passed = (HandlePc.calling k).passed := by
  cases k <;> rfl

theorem HandlePc.not_mem_passed (k : Callback) : k ∉ (HandlePc.test k).passed := by
  cases k <;> decide

namespace Handling

variable {h h' : Handling κ β} {k : Callback}

omit [DecidableEq κ] in
/-- The `if` of `k` looks at what is set as `k`, and the ones before it are done. -/
theorem InOrder.pass {cb : Option β} (ho : h.InOrder) (hpc : h.pc = .test k) (hr : h'.revents = h.revents)
    (ht : h'.receiveTime = h.receiveTime) (hf : h'.found = update h.found k cb)
    (hp : h'.pc.passed = (HandlePc.test k).passed ++ [k]) (hc : h'.calls = h.calls ++ (h'.call? k).toList) :
    h'.InOrder := by
  have hbefore : (HandlePc.test k).passed.filterMap h'.call? = (HandlePc.test k).passed.filterMap h.call? := by
    refine List.filterMap_congr fun k' hk' => ?_
    have hne : k' ≠ k := fun heq => HandlePc.not_mem_passed k (heq ▸ hk')
    rw [call?, call?, hr, ht, hf, update_of_ne hne]
  rw [InOrder, hpc] at ho
  rw [InOrder, hp, List.filterMap_append, hbefore, ← ho, hc]
  cases hk : h'.call? k <;> simp [hk]

omit [DecidableEq κ] in
theorem InOrder.test (ho : h.InOrder) (hpc : h.pc = .test k) (cb : Option β) : (h.test k h.revents cb).InOrder := by
  have hafter := (HandlePc.passed_after k).trans (HandlePc.passed_calling k)
  unfold Handling.test
  cases hw : k.wanted h.revents with
  | false => exact ho.pass hpc rfl rfl rfl hafter (by simp [call?, hw])
  | true =>
    cases cb with
    | none => exact ho.pass hpc rfl rfl rfl hafter (by simp [call?])
    | some f => exact ho.pass hpc rfl rfl rfl (HandlePc.passed_calling k) (by simp [call?, hw])

omit [DecidableEq κ] in
theorem test_channel (revents : BitVec 32) (cb : Option β) :
    (h.test k revents cb).channel = h.channel ∧ (h.test k revents cb).revents = h.revents := by
  unfold test
  split <;> exact ⟨rfl, rfl⟩

end Handling

/-- The step is a poll. -/
def HandlingLabel.Polls : HandlingLabel κ β → Prop
  | .channel (.poll _) _ => True
  | _ => False

namespace EventHandling

variable {fd : κ → Int} {s s' : EventHandling κ β}

/-- Each call under way finds the mask it began with, and each call has called what it was asked for. -/
structure Told (s : EventHandling κ β) : Prop where
  masks : ∀ h ∈ s.handlings, (s.channel h.channel).revents = h.revents
  orders : ∀ h ∈ s.handlings, h.InOrder
  done : ∀ h ∈ s.handled, h.calls = Callback.all.filterMap h.call?

end EventHandling

/-- An operation on a channel leaves the masks of the last poll, and `eventHandling_`. -/
theorem step_keeps {fd : κ → Int} {fault : Option Errno} {l l' : LoopState κ} {op : LoopOp κ} (hi : Mapped fd l)
    (h : l.step fd fault op = some l') (d : κ) :
    ((∀ result, op ≠ .poll result) → (l'.channel d).revents = (l.channel d).revents) ∧
      (l'.channel d).eventHandling = (l.channel d).eventHandling := by
  rcases step_cases h with ⟨c, f, -, h⟩ | ⟨c, -, h⟩ | ⟨result, hop, -, h⟩
  · obtain ⟨-, _, _, -, _, _, -, rfl⟩ := changeEvents_ctl hi rfl h
    by_cases hdc : d = c
    · subst hdc
      simp [Channel.registered]
    · simp [hdc]
  · obtain ⟨-, rfl⟩ := remove_deleted hi h
    by_cases hdc : d = c
    · subst hdc
      simp
    · simp [hdc]
  · obtain ⟨r, hr⟩ := (poll_polled h).channel d
    rw [hr]
    exact ⟨fun hnot => absurd hop (hnot result), rfl⟩

namespace EventHandling

theorem setEventHandling_channel (s : EventHandling κ β) (c d : κ) (b : Bool) :
    ((s.setEventHandling c b).channel d).revents = (s.channel d).revents ∧
      ((s.setEventHandling c b).channel d).flag = (s.channel d).flag ∧
      ((s.setEventHandling c b).channel d).eventHandling = if d = c then b else (s.channel d).eventHandling := by
  by_cases hdc : d = c
  · subst hdc
    simp [setEventHandling, LoopState.setChannel]
  · simp [setEventHandling, LoopState.setChannel, hdc]

theorem step_told {a : HandlingLabel κ β} (hi : Mapped fd s.toLoopState) (hp : a.Polls → s.handlings = [])
    (h : s.Told) (hs : (HandlingLoop β fd).step s a = some s') : s'.Told := by
  cases step_inv hs with
  | @handleEvent c receiveTime =>
    refine ⟨fun h' hm => ?_, fun h' hm => ?_, h.done⟩
    · refine (s.setEventHandling_channel c h'.channel true).1.trans ?_
      rcases List.mem_cons.1 hm with rfl | hm
      · rfl
      · exact h.masks h' hm
    · rcases List.mem_cons.1 hm with rfl | hm
      · rfl
      · exact h.orders h' hm
  | @test hd hs k heq hpc =>
    have hmem : hd ∈ s.handlings := by simp [heq]
    have hmask := h.masks hd hmem
    refine ⟨fun h' hm => ?_, fun h' hm => ?_, h.done⟩
    · rcases List.mem_cons.1 hm with rfl | hm
      · rw [(hd.test_channel _ _).1, (hd.test_channel _ _).2]
        exact hmask
      · exact h.masks h' (by simp [heq, hm])
    · rcases List.mem_cons.1 hm with rfl | hm
      · rw [hmask]
        exact (h.orders hd hmem).test hpc _
      · exact h.orders h' (by simp [heq, hm])
  | @leave hd hs heq hpc =>
    refine ⟨fun h' hm => ?_, fun h' hm => h.orders h' (by simp [heq, hm]), fun h' hm => ?_⟩
    · exact (s.setEventHandling_channel hd.channel h'.channel false).1.trans (h.masks h' (by simp [heq, hm]))
    · rcases List.mem_append.1 hm with hm | hm
      · exact h.done h' hm
      · obtain rfl := List.mem_singleton.1 hm
        have ho := h.orders h' (by simp [heq])
        rwa [Handling.InOrder, hpc] at ho
  | @callbackReturns hd hs k heq hpc =>
    have hmem : hd ∈ s.handlings := by simp [heq]
    refine ⟨fun h' hm => ?_, fun h' hm => ?_, h.done⟩
    · rcases List.mem_cons.1 hm with rfl | hm
      · exact h.masks hd hmem
      · exact h.masks h' (by simp [heq, hm])
    · rcases List.mem_cons.1 hm with rfl | hm
      · have ho := h.orders hd hmem
        rw [Handling.InOrder, hpc] at ho
        rw [Handling.InOrder, HandlePc.passed_after]
        exact ho
      · exact h.orders h' (by simp [heq, hm])
  | @channel op fault l hr hd hl =>
    refine ⟨fun h' hm => ?_, h.orders, h.done⟩
    refine ((step_keeps hi hl h'.channel).1 ?_).trans (h.masks h' hm)
    rintro result rfl
    rw [hp trivial] at hm
    cases hm
  | setCallback | destroy => exact ⟨h.masks, h.orders, h.done⟩

/-- Each call of `handleEvent` that has returned has called, in the order of the
source, the callbacks that were set when their `if` came and that the mask which
the call found in `revents_` asks for, and no others: whatever the callbacks did
to the channels, if no poll came in between. -/
theorem handled_in_order {as : List (HandlingLabel κ β)} (hr : (HandlingLoop β fd).run .create as = some s)
    (hp : (HandlingLoop β fd).Guarded (fun s a => a.Polls → s.handlings = []) .create as) :
    ∀ h ∈ s.handled, h.calls = Callback.all.filterMap h.call? := by
  have h0 : (EventHandling.create : EventHandling κ β).Told := by constructor <;> simp [create]
  have hinv := hp.always (I := fun s => (HandlingLoop β fd).Reachable s ∧ s.Told)
    (fun s a s' hi hp hs => ⟨hi.1.step hs, step_told (mapped_of_reachable hi.1) hp hi.2 hs⟩) ⟨.init rfl, h0⟩
  exact (hinv.last hr).2.done

/-- A read callback that takes the write callback away, and all interest of the channel. -/
def readRun : List (HandlingLabel Unit Nat) :=
  [.setCallback () .readCallback (some 1), .setCallback () .writeCallback (some 2), .channel (.enableReading ()) none,
    .channel (.poll (some [(5, POLLIN ||| POLLOUT)])) none, .handleEvent () .invalid, .next, .next, .next,
    .setCallback () .writeCallback none, .channel (.disableAll ()) none, .callbackReturns, .next, .next]

theorem handled_in_order_read : ∃ s, (HandlingLoop Nat fun _ : Unit => 5).run .create readRun = some s ∧
    (s.handled.map fun h => h.calls.map fun c => (c.callback, c.function)) = [[(.readCallback, 1)]] ∧
    ∀ h ∈ s.handled, h.calls = Callback.all.filterMap h.call? := by
  have h : ((HandlingLoop Nat fun _ : Unit => 5).run .create readRun).map (fun s =>
      s.handled.map fun h => h.calls.map fun c => (c.callback, c.function)) = some [[(.readCallback, 1)]] := by
    decide +kernel
  obtain ⟨s, hs, hcalls⟩ := Option.map_eq_some_iff.1 h
  refine ⟨s, hs, hcalls, handled_in_order hs ?_⟩
  -- Only the fourth step is a poll.
  refine .of_step rfl False.elim (.of_step rfl False.elim (.of_step rfl False.elim (.of_step rfl (fun _ => rfl) ?_)))
  exact .of_labels (by simp [HandlingLabel.Polls])

end EventHandling

end Ycnt.Net

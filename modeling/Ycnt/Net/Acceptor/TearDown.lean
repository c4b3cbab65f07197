import Ycnt.Net.EpollPoller.Disable
import Ycnt.Net.Acceptor
/-!
# Tear-down

The destructors of Acceptors and of their `EventLoop`. `~Acceptor` is written for
an Acceptor that listens, and `~EventLoop` leaves its wakeup channel registered.
-/

namespace Ycnt.Net

open Function Linux

variable {κ γ : Type*} [DecidableEq κ] (logLevel : LogLevel) (fd : κ → Int) (wakeupChannel : κ)

/-- `~EventLoop`: what asserts is the destructor of `wakeupChannel_`. -/
def EventLoop.destroy (s : LoopState κ) : Option Unit :=
  if (s.channel wakeupChannel).Destructible then some () else none

/-- The Acceptors are destroyed in this order, as far as no FATAL statement stops the thread. -/
def destroyAll : Acceptors κ γ → List (Destruction κ) → Option (Acceptors κ γ)
  | s, [] => some s
  | s, d :: order => (Acceptor.destroy logLevel fd s d).bind fun s => s.andThen fun s => destroyAll s order

/-- After the Acceptors the `EventLoop`; `none` if an assertion fails on the way. -/
def tearDown (s : Acceptors κ γ) (order : List (Destruction κ)) : Option (Acceptors κ γ) :=
  (destroyAll logLevel fd s order).bind fun s =>
    s.andThen fun s => (EventLoop.destroy wakeupChannel s.toLoopState).map fun _ => s

omit [DecidableEq κ] in
/-- One of the Acceptors has listened, as have those destroyed before it, and
`~Socket` fails to close its descriptor, which is fatal. -/
def EndsInClose (s : Acceptors κ γ) (order : List (Destruction κ)) : Prop :=
  logLevel = .FATAL ∧ ∃ pre d post, order = pre ++ d :: post ∧
    (∀ e ∈ pre, (s.acceptor e.acceptor).listening = true) ∧
    (s.acceptor d.acceptor).listening = true ∧ d.closeFault.isSome

/-- The flag of an Acceptor's channel. -/
def Acceptor.channelFlag (a : Acceptor γ) : Flag := if a.listening then .kAdded else .kNew

/-- Which channels are registered in a history of Acceptors: the wakeup channel,
and those of the Acceptors that have listened. -/
structure Listens (s : Acceptors κ γ) : Prop where
  mapped : Mapped fd s.toLoopState
  wakeup_added : (s.channel wakeupChannel).flag = .kAdded
  wakeup_not_mem : wakeupChannel ∉ s.acceptors
  nodup : s.acceptors.Nodup
  flag_of_mem : ∀ c ∈ s.acceptors, (s.channel c).flag = (s.acceptor c).channelFlag
  flag_of_not_mem : ∀ c, c ∉ s.acceptors → c ≠ wakeupChannel → (s.channel c).flag = .kNew
  not_handling : ∀ c, (s.channel c).eventHandling = false

variable {logLevel fd wakeupChannel} {s s' : Acceptors κ γ} {c : κ} {d : Destruction κ} {order : List (Destruction κ)}

/-! ## Every history keeps it -/

theorem reading_ne_none (e : BitVec 32) : e ||| kReadEvent ≠ kNoneEvent := by
  intro h
  have := congrArg (·.getLsbD 0) h
  simp [kReadEvent, kNoneEvent, POLLIN, POLLPRI] at this

theorem init_listens (h : (AcceptorLoop γ logLevel fd wakeupChannel).init s) : Listens fd wakeupChannel s := by
  obtain ⟨⟨fault, -, h⟩, hacc, -⟩ := h
  have hm := changeEvents_mapped init_mapped h
  obtain ⟨-, op, flag, hctl, k, failed, -, hs⟩ := changeEvents_ctl init_mapped rfl h
  have hadded : flag = .kAdded := by
    cases hctl with
    | add | mod => rfl
    | del hf => cases hf
  refine ⟨hm, ?_, ?_, ?_, ?_, fun c _ hc => ?_, fun c => ?_⟩
  · rw [hs, hadded]
    simp [Channel.registered]
  · simp [hacc]
  · simp [hacc]
  · simp [hacc]
  · rw [hs]
    dsimp only
    rw [update_of_ne hc]
    rfl
  · rw [hs]
    dsimp only
    by_cases hcw : c = wakeupChannel
    · subst hcw
      rw [update_self]
      rfl
    · rw [update_of_ne hcw]
      rfl

omit [DecidableEq κ] in
/-- An operation on the channel of an Acceptor `c`, which stays an Acceptor. -/
theorem Listens.set {l : LoopState κ} {acceptor : κ → Acceptor γ} {handled : List (Handled γ)} {logger : SocketLogger}
    (hi : Listens fd wakeupChannel s) (hc : c ∈ s.acceptors) (hm : Mapped fd l)
    (hother : ∀ d, d ≠ c → l.channel d = s.channel d ∧ acceptor d = s.acceptor d)
    (hflag : (l.channel c).flag = (acceptor c).channelFlag)
    (hh : (l.channel c).eventHandling = false) :
    Listens fd wakeupChannel ⟨l, s.acceptors, acceptor, handled, logger⟩ := by
  have hcw : wakeupChannel ≠ c := fun h => hi.wakeup_not_mem (h ▸ hc)
  refine ⟨hm, ?_, hi.wakeup_not_mem, hi.nodup, fun d hd => ?_, fun d hd hdw => ?_, fun d => ?_⟩
  · rw [(hother _ hcw).1]
    exact hi.wakeup_added
  · by_cases hdc : d = c
    · exact hdc ▸ hflag
    · dsimp only
      rw [(hother d hdc).1, (hother d hdc).2]
      exact hi.flag_of_mem d hd
  · have hdc : d ≠ c := fun h => hd (h ▸ hc)
    rw [(hother d hdc).1]
    exact hi.flag_of_not_mem d hd hdw
  · by_cases hdc : d = c
    · exact hdc ▸ hh
    · rw [(hother d hdc).1]
      exact hi.not_handling d

/-- A channel that is constructed where none is in `channels_`. -/
theorem Mapped.fresh {l : LoopState κ} (hi : Mapped fd l) (hnew : (l.channel c).flag = .kNew) :
    Mapped fd { l with channel := update l.channel c {} } := by
  have hset : ∀ P : κ → Channel → Prop, P c {} → (∀ d, P d (l.channel d)) → ∀ d, P d (update l.channel c {} d) :=
    fun P hc h => (forall_update_iff _ _).2 ⟨hc, fun d _ => h d⟩
  refine ⟨?_, hi.mapped_fd, hi.ptr_fd, ?_, ?_, ?_, hi.not_handling⟩
  · refine hset (fun d ch => l.channels (fd d) = some d ↔ ch.flag = .kAdded ∨ ch.flag = .kDeleted) ?_ hi.mapped_iff
    rw [hi.mapped_iff, hnew]
  · exact hset (fun _ ch => ch.flag = .kAdded ↔ ch.events ≠ kNoneEvent) (by simp [kNoneEvent]) hi.added_iff
  · exact hset (fun _ ch => ch.addedToLoop = true ↔ ch.flag ≠ .kNew) (by simp) hi.looped_iff
  · exact hset (fun _ ch => ch.flag ≠ .NUM_OF_FLAGS) (by simp) hi.flag_lt

theorem construct_listens {socketFault bindFault : Option Errno} (hi : Listens fd wakeupChannel s)
    (h : Acceptor.construct logLevel fd wakeupChannel s c socketFault bindFault = some s') (hr : s'.Running) :
    Listens fd wakeupChannel s' := by
  simp only [Acceptor.construct, Option.ite_none_right_eq_some] at h
  obtain ⟨⟨⟨hcw, hc⟩, -⟩, h⟩ := h
  -- Where a FATAL statement has stopped the constructor nothing is to be shown.
  rcases andThen_cases h with ⟨hstop, rfl⟩ | ⟨-, h⟩
  · exact absurd hr hstop
  rcases andThen_cases h with ⟨hstop, rfl⟩ | ⟨-, h⟩
  · exact absurd hr hstop
  obtain rfl := Option.some.inj h
  refine ⟨hi.mapped.fresh (hi.flag_of_not_mem c hc hcw), ?_, ?_, List.nodup_cons.2 ⟨hc, hi.nodup⟩, fun d hd => ?_,
    fun d hd hdw => ?_, fun d => ?_⟩
  · dsimp only
    rw [update_of_ne hcw.symm]
    exact hi.wakeup_added
  · rw [List.mem_cons, not_or]
    exact ⟨hcw.symm, hi.wakeup_not_mem⟩
  · dsimp only
    by_cases hdc : d = c
    · subst hdc
      rw [update_self, update_self]
      rfl
    · rw [update_of_ne hdc, update_of_ne hdc]
      exact hi.flag_of_mem d ((List.mem_cons.1 hd).resolve_left hdc)
  · rw [List.mem_cons, not_or] at hd
    dsimp only
    rw [update_of_ne hd.1]
    exact hi.flag_of_not_mem d hd.2 hdw
  · dsimp only
    by_cases hdc : d = c
    · subst hdc
      rw [update_self]
    · rw [update_of_ne hdc]
      exact hi.not_handling d

/-- `disableAll(); remove();` leaves a channel that can be destroyed, if it gets that far. -/
theorem destroy_cases (hi : Listens fd wakeupChannel s) (h : Acceptor.destroy logLevel fd s d = some s') :
    (s.channel d.acceptor).flag = .kAdded ∧ ∃ l : LoopState κ, Mapped fd l ∧
      (∀ c, c ≠ d.acceptor → l.channel c = s.channel c) ∧
      (l.channel d.acceptor).flag = .kNew ∧ (l.channel d.acceptor).eventHandling = false ∧
      s' = { s with
        toLoopState := { l with kernel := update l.kernel (fd d.acceptor) none }
        acceptors := s.acceptors.erase d.acceptor
        logger := sockets.closeOrDie logLevel s.logger d.closeFault } := by
  simp only [Acceptor.destroy, Option.bind_eq_some_iff, Option.ite_none_right_eq_some, Option.some.injEq] at h
  obtain ⟨l, hl, l', hl', hd, rfl⟩ := h
  have hadded := (changeEvents_isSome_iff d.disableFault d.acceptor hi.mapped rfl).1 (Option.isSome_iff_exists.2 ⟨l, hl⟩)
  have hm := changeEvents_mapped hi.mapped hl
  obtain ⟨-, _, _, -, _, _, -, rfl⟩ := changeEvents_ctl hi.mapped rfl hl
  have hm' := remove_mapped hm hl'
  obtain ⟨-, rfl⟩ := remove_deleted hm hl'
  refine ⟨hadded, _, hm', fun c hc => ?_, ?_, hd.1, rfl⟩
  · dsimp only
    rw [update_of_ne hc, update_of_ne hc]
  · simp

theorem destroy_listens (hi : Listens fd wakeupChannel s) (hc : d.acceptor ∈ s.acceptors)
    (h : Acceptor.destroy logLevel fd s d = some s') : Listens fd wakeupChannel s' := by
  obtain ⟨-, l, hm, hother, hnew, hh, rfl⟩ := destroy_cases hi h
  have hcw : wakeupChannel ≠ d.acceptor := fun h => hi.wakeup_not_mem (h ▸ hc)
  have hmem : ∀ c, c ∈ s.acceptors.erase d.acceptor ↔ c ≠ d.acceptor ∧ c ∈ s.acceptors :=
    fun c => hi.nodup.mem_erase_iff
  refine ⟨?_, ?_, ?_, hi.nodup.erase d.acceptor, fun c hcm => ?_, fun c hcm hcw => ?_, fun c => ?_⟩
  · refine ⟨hm.mapped_iff, hm.mapped_fd, fun f i hf => ?_, hm.added_iff, hm.looped_iff, hm.flag_lt, hm.not_handling⟩
    by_cases hfc : f = fd d.acceptor
    · subst hfc
      simp at hf
    · exact hm.ptr_fd f i ((update_of_ne hfc _ _).symm.trans hf)
  · rw [← hi.wakeup_added, ← hother _ hcw]
  · exact fun hw => hi.wakeup_not_mem ((hmem _).1 hw).2
  · obtain ⟨hcd, hcm⟩ := (hmem c).1 hcm
    dsimp only
    rw [hother c hcd]
    exact hi.flag_of_mem c hcm
  · by_cases hcd : c = d.acceptor
    · exact hcd ▸ hnew
    · dsimp only
      rw [hother c hcd]
      exact hi.flag_of_not_mem c (fun hc' => hcm ((hmem c).2 ⟨hcd, hc'⟩)) hcw
  · by_cases hcd : c = d.acceptor
    · exact hcd ▸ hh
    · dsimp only
      rw [hother c hcd]
      exact hi.not_handling c

theorem listen_listens {socketFault fault : Option Errno} (hi : Listens fd wakeupChannel s) (hc : c ∈ s.acceptors)
    (h : Acceptor.listen logLevel fd s c socketFault fault = some s') (hr : s'.Running) : Listens fd wakeupChannel s' := by
  unfold Acceptor.listen at h
  rcases andThen_cases h with ⟨hstop, rfl⟩ | ⟨-, h⟩
  · exact absurd hr hstop
  obtain ⟨l, hl, rfl⟩ := Option.map_eq_some_iff.1 h
  have hm := changeEvents_mapped hi.mapped hl
  obtain ⟨-, op, flag, hctl, _, _, -, rfl⟩ := changeEvents_ctl hi.mapped rfl hl
  have hadded : flag = .kAdded := by
    cases hctl with
    | add | mod => rfl
    | del _ he => exact absurd he (reading_ne_none _)
  refine hi.set hc hm (fun d hd => ⟨update_of_ne hd _ _, update_of_ne hd _ _⟩) ?_ ?_
  · simp [Acceptor.channelFlag, Channel.registered, hadded]
  · simpa [Channel.registered] using hi.not_handling c

/-- An operation that leaves the thread running. -/
theorem operate_listens {a : AcceptorOp κ γ} (hi : Listens fd wakeupChannel s)
    (h : s.operate logLevel fd wakeupChannel a = some s') (hr : s'.Running) : Listens fd wakeupChannel s' := by
  cases a with
  | construct c socketFault bindFault => exact construct_listens hi h hr
  | destroy d =>
    simp only [Acceptors.operate, Option.ite_none_right_eq_some] at h
    exact destroy_listens hi h.1 h.2
  | listen c socketFault fault =>
    simp only [Acceptors.operate, Option.ite_none_right_eq_some] at h
    exact listen_listens hi h.1 h.2 hr
  | setNewConnectionCallback c cb | pause c | resume c =>
    simp only [Acceptors.operate, Option.ite_none_right_eq_some, Option.some.injEq] at h
    obtain ⟨hc, rfl⟩ := h
    refine hi.set hc hi.mapped (fun d hd => ⟨rfl, update_of_ne hd _ _⟩) ?_ (hi.not_handling c)
    rw [update_self]
    exact hi.flag_of_mem c hc
  | handleRead c result =>
    simp only [Acceptors.operate, Option.ite_none_right_eq_some, Option.some.injEq] at h
    obtain ⟨hc, rfl⟩ := h
    have hsame : ∀ handled logger, Listens fd wakeupChannel { s with handled := handled, logger := logger } :=
      fun _ _ => hi.set hc hi.mapped (fun d _ => ⟨rfl, rfl⟩) (hi.flag_of_mem c hc) (hi.not_handling c)
    cases result with
    | ok r =>
      obtain ⟨connfd, peer⟩ := r
      rw [handleRead_ok]
      exact hsame _ _
    | error e =>
      rw [handleRead_error]
      exact hsame _ _
  | poll result =>
    obtain ⟨l, hl, rfl⟩ := Option.map_eq_some_iff.1 h
    simp only [LoopState.step, Option.ite_none_right_eq_some] at hl
    have hp := poll_polled hl.2
    refine ⟨hi.mapped.polled hp, ?_, hi.wakeup_not_mem, hi.nodup, fun c hc => ?_, fun c hc hcw => ?_, fun c => ?_⟩
    · obtain ⟨r, hr⟩ := hp.channel wakeupChannel
      rw [hr]
      exact hi.wakeup_added
    all_goals
      obtain ⟨r, hr⟩ := hp.channel c
      rw [hr]
    · exact hi.flag_of_mem c hc
    · exact hi.flag_of_not_mem c hc hcw
    · exact hi.not_handling c
  | abort =>
    obtain ⟨l, hl, rfl⟩ := Option.map_eq_some_iff.1 h
    simp only [LoggerState.step, Option.ite_none_right_eq_some, Option.some.injEq] at hl
    obtain ⟨-, rfl⟩ := hl
    cases hr.1

theorem reachable_listens (h : (AcceptorLoop γ logLevel fd wakeupChannel).Reachable s) (hr : s.Running) :
    Listens fd wakeupChannel s := by
  refine h.inv (I := fun s => s.Running → Listens fd wakeupChannel s) (fun _ h _ => init_listens h)
    (fun s a s' hi h hr' => ?_) hr
  obtain ⟨hrun, hop⟩ := step_operate h
  rcases hrun with hrun | rfl
  · exact operate_listens (hi hrun) hop hr'
  · -- After the abort nothing runs.
    obtain ⟨l, hl, rfl⟩ := Option.map_eq_some_iff.1 hop
    simp only [LoggerState.step, Option.ite_none_right_eq_some, Option.some.injEq] at hl
    obtain ⟨-, rfl⟩ := hl
    cases hr'.1

/-! ## Destroying them -/

omit [DecidableEq κ] in
theorem Listens.listening_iff (hi : Listens fd wakeupChannel s) (hc : c ∈ s.acceptors) :
    (s.channel c).flag = .kAdded ↔ (s.acceptor c).listening = true := by
  rw [hi.flag_of_mem c hc, Acceptor.channelFlag]
  cases (s.acceptor c).listening <;> simp

/-- `~Acceptor` meets the assertions exactly if the Acceptor has listened. -/
theorem destroy_isSome_iff (logLevel : LogLevel) (hi : Listens fd wakeupChannel s) (hc : d.acceptor ∈ s.acceptors) :
    (Acceptor.destroy logLevel fd s d).isSome ↔ (s.acceptor d.acceptor).listening = true := by
  rw [← hi.listening_iff hc]
  constructor
  · intro hsome
    obtain ⟨s', hs⟩ := Option.isSome_iff_exists.1 hsome
    exact (destroy_cases hi hs).1
  · intro hadded
    obtain ⟨l, hl⟩ := Option.isSome_iff_exists.1 (changeEvents_added d.disableFault (fun _ => kNoneEvent) hi.mapped hadded)
    have hdisable : Channel.disableAll fd d.disableFault s.toLoopState d.acceptor = some l := hl
    have hm := changeEvents_mapped hi.mapped hl
    have hdeleted := disableAll_deleted hi.mapped hdisable
    obtain ⟨l', hremove⟩ := Option.isSome_iff_exists.1 ((remove_isSome_iff d.removeFault d.acceptor hm).2 hdeleted)
    have hd : (l'.channel d.acceptor).Destructible := by
      obtain ⟨-, _, _, -, _, _, -, rfl⟩ := changeEvents_ctl hi.mapped rfl hl
      obtain ⟨-, rfl⟩ := remove_deleted hm hremove
      exact ⟨by simpa [Channel.registered] using hi.not_handling d.acceptor, by simp⟩
    simp only [Acceptor.destroy, hdisable, hremove, Option.bind_some, if_pos hd, Option.isSome_some]

omit [DecidableEq κ] in
theorem not_endsInClose_nil : ¬ EndsInClose logLevel s [] := by
  rintro ⟨-, pre, d, post, h, -⟩
  simp at h

omit [DecidableEq κ] in
theorem endsInClose_cons : EndsInClose logLevel s (d :: order) ↔ (s.acceptor d.acceptor).listening = true ∧
    (logLevel = .FATAL ∧ d.closeFault.isSome ∨ EndsInClose logLevel s order) := by
  constructor
  · rintro ⟨hl, pre, e, post, h, hpre, he, hclose⟩
    cases pre with
    | nil =>
      obtain ⟨rfl, -⟩ := List.cons.inj h
      exact ⟨he, .inl ⟨hl, hclose⟩⟩
    | cons p pre =>
      obtain ⟨rfl, rfl⟩ := List.cons.inj h
      obtain ⟨hp, hpre⟩ := List.forall_mem_cons.1 hpre
      exact ⟨hp, .inr ⟨hl, pre, e, post, rfl, hpre, he, hclose⟩⟩
  · rintro ⟨hd, ⟨hl, hclose⟩ | ⟨hl, pre, e, post, rfl, hpre, he, hclose⟩⟩
    · exact ⟨hl, [], d, order, rfl, by simp, hd, hclose⟩
    · exact ⟨hl, d :: pre, e, post, rfl, List.forall_mem_cons.2 ⟨hd, hpre⟩, he, hclose⟩

/-- Either a failing `close` ends the process, or the destructors of the Acceptors
come to their end, if they do, with the wakeup channel as registered as before. -/
theorem destroyAll_cases (logLevel : LogLevel) (hi : Listens fd wakeupChannel s) (hr : s.Running)
    (hnodup : (order.map Destruction.acceptor).Nodup) (hmem : ∀ d ∈ order, d.acceptor ∈ s.acceptors) :
    (EndsInClose logLevel s order ∧ ∃ t, destroyAll logLevel fd s order = some t ∧ ¬ t.Running) ∨
    (¬ EndsInClose logLevel s order ∧
      ∀ t, destroyAll logLevel fd s order = some t → t.Running ∧ Listens fd wakeupChannel t) := by
  induction order generalizing s with
  | nil => exact .inr ⟨not_endsInClose_nil, fun t ht => Option.some.inj ht ▸ ⟨hr, hi⟩⟩
  | cons d order ih =>
    obtain ⟨hc, hmem⟩ := List.forall_mem_cons.1 hmem
    rw [List.map_cons, List.nodup_cons] at hnodup
    rw [endsInClose_cons, destroyAll]
    cases hd : Acceptor.destroy logLevel fd s d with
    | none =>
      -- An assertion fails: the Acceptor has not listened.
      have hlisten := (destroy_isSome_iff logLevel hi hc).not.1 (by simp [hd])
      exact .inr ⟨fun h => hlisten h.1, nofun⟩
    | some s' =>
      have hlisten := (destroy_isSome_iff logLevel hi hc).1 (by simp [hd])
      have hi' := destroy_listens hi hc hd
      obtain ⟨-, l, -, -, -, -, hs'⟩ := destroy_cases hi hd
      have hrun : s'.Running ↔ ¬ (logLevel = .FATAL ∧ d.closeFault.isSome) := by
        rw [hs']
        exact orDie_running_iff.trans (and_iff_right hr)
      rw [and_iff_right hlisten, Option.bind_some, Acceptors.andThen]
      by_cases hstop : logLevel = .FATAL ∧ d.closeFault.isSome
      · have hr' : ¬ s'.Running := fun h => hrun.1 h hstop
        exact .inl ⟨.inl hstop, s', if_neg hr', hr'⟩
      · have hsame : EndsInClose logLevel s order ↔ EndsInClose logLevel s' order := by
          rw [hs']
          rfl
        have hmem' : ∀ e ∈ order, e.acceptor ∈ s'.acceptors := fun e he => by
          rw [hs']
          refine (hi.nodup.mem_erase_iff).2 ⟨fun heq => hnodup.1 ?_, hmem e he⟩
          exact heq ▸ List.mem_map_of_mem he
        rw [or_iff_right hstop, hsame, if_pos (hrun.2 hstop)]
        exact ih hi' (hrun.2 hstop) hnodup.2 hmem'

/-- Whatever has been done on a loop, and in whatever order its Acceptors are then
destroyed: the tear-down does not come to its end. It violates an assertion, that of
`~Channel` for the wakeup channel at the latest, unless a FATAL statement in
`~Socket` ends the process before it gets there. -/
theorem tearDown_isSome_iff (h : (AcceptorLoop γ logLevel fd wakeupChannel).Reachable s) (hr : s.Running)
    (horder : (order.map Destruction.acceptor).Perm s.acceptors) :
    ((tearDown logLevel fd wakeupChannel s order).isSome ↔ EndsInClose logLevel s order) ∧
      ∀ t, tearDown logLevel fd wakeupChannel s order = some t → ¬ t.Running := by
  have hi := reachable_listens h hr
  have hmem : ∀ d ∈ order, d.acceptor ∈ s.acceptors := fun d hd => horder.subset (List.mem_map_of_mem hd)
  have hnodup := horder.nodup_iff.2 hi.nodup
  rcases destroyAll_cases logLevel hi hr hnodup hmem with ⟨hends, t, ht, hstop⟩ | ⟨hends, hall⟩
  · have htear : tearDown logLevel fd wakeupChannel s order = some t := by
      rw [tearDown, ht, Option.bind_some, Acceptors.andThen, if_neg hstop]
    exact ⟨iff_of_true (by simp [htear]) hends, fun u hu => Option.some.inj (htear.symm.trans hu) ▸ hstop⟩
  · have htear : tearDown logLevel fd wakeupChannel s order = none := by
      rw [tearDown, Option.bind_eq_none_iff]
      intro t ht
      obtain ⟨hrun, hi'⟩ := hall t ht
      have hlooped := (hi'.mapped.looped_iff wakeupChannel).2 (by simp [hi'.wakeup_added])
      simp [Acceptors.andThen, hrun, EventLoop.destroy, Channel.Destructible, hlooped]
    exact ⟨iff_of_false (by simp [htear]) hends, fun u hu => nomatch htear.symm.trans hu⟩

/-- An `EventLoop` whose only Acceptor has listened, and whose socket cannot be closed.
At the level INFO, where it has listened in vain too, the tear-down violates an
assertion all the same; at FATAL the process ends before. -/
theorem tearDown_isSome_iff_listening :
    (∃ s, (AcceptorLoop Nat .INFO fdOf true).init s ∧
      ∃ t, (AcceptorLoop Nat .INFO fdOf true).run s [.construct false none none, .listen false (some .EADDRINUSE) none,
        .listen false none none, .pause false] = some t ∧
      tearDown .INFO fdOf true t [⟨false, none, none, some .EINTR⟩] = none) ∧
    ∃ s, (AcceptorLoop Nat .FATAL fdOf true).init s ∧
      ∃ t, (AcceptorLoop Nat .FATAL fdOf true).run s [.construct false none none, .listen false none none] = some t ∧
      (tearDown .FATAL fdOf true t [⟨false, none, none, some .EINTR⟩]).isSome := by
  have hperm : ∀ t : Acceptors Bool Nat, t.acceptors = [false] →
      (([⟨false, none, none, some .EINTR⟩] : List (Destruction Bool)).map Destruction.acceptor).Perm t.acceptors :=
    fun t ht => by rw [ht]; exact .refl _
  constructor
  · obtain ⟨s, hs, t, ht, hr, hacc⟩ : ∃ s, (AcceptorLoop Nat .INFO fdOf true).init s ∧
        ∃ t, (AcceptorLoop Nat .INFO fdOf true).run s [.construct false none none, .listen false (some .EADDRINUSE) none,
          .listen false none none, .pause false] = some t ∧ t.Running ∧ t.acceptors = [false] :=
      ⟨⟨_, [], fun _ => {}, [], .empty⟩, ⟨⟨none, nofun, rfl⟩, rfl, rfl, rfl, rfl⟩, _, rfl, ⟨rfl, rfl⟩, rfl⟩
    have hiff := (tearDown_isSome_iff ((Lts.System.Reachable.init hs).run ht) hr (hperm t hacc)).1
    exact ⟨s, hs, t, ht, Option.not_isSome_iff_eq_none.1 fun h => nomatch (hiff.1 h).1⟩
  · obtain ⟨s, hs, t, ht, hr, hacc, hlisten⟩ : ∃ s, (AcceptorLoop Nat .FATAL fdOf true).init s ∧
        ∃ t, (AcceptorLoop Nat .FATAL fdOf true).run s [.construct false none none, .listen false none none] = some t ∧
          t.Running ∧ t.acceptors = [false] ∧ (t.acceptor false).listening = true :=
      ⟨⟨_, [], fun _ => {}, [], .empty⟩, ⟨⟨none, nofun, rfl⟩, rfl, rfl, rfl, rfl⟩, _, rfl, ⟨rfl, rfl⟩, rfl, rfl⟩
    have hiff := (tearDown_isSome_iff ((Lts.System.Reachable.init hs).run ht) hr (hperm t hacc)).1
    exact ⟨s, hs, t, ht, hiff.2 ⟨rfl, [], _, [], rfl, by simp, hlisten, rfl⟩⟩

/-- A loop with no Acceptor at all, and one whose Acceptor never listened. -/
theorem tearDown_asserts : ∃ s, (AcceptorLoop Nat .INFO fdOf true).init s ∧ tearDown .INFO fdOf true s [] = none ∧
    ∃ t, (AcceptorLoop Nat .INFO fdOf true).run s [.construct false none none] = some t ∧
      destroyAll .INFO fdOf t [⟨false, none, none, none⟩] = none :=
  ⟨⟨_, [], fun _ => {}, [], .empty⟩, ⟨⟨none, nofun, rfl⟩, rfl, rfl, rfl, rfl⟩, rfl, _, rfl, rfl⟩

end Ycnt.Net

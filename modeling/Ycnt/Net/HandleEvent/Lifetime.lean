import Ycnt.Net.HandleEvent
/-!
# Channels that callbacks destroy

`~Channel` asserts that no `handleEvent` of the channel is under way and that the
channel is not added to the loop. What passes these assertions is out of reach of
`handleEventImpl` and of `poll`, unless a channel's callback calls the channel's
own `handleEvent`, whose end takes `eventHandling_` back too early, or a `DEL`
fails, after which the kernel still has the channel's address.
-/

namespace Ycnt.Net

open Function Linux

variable {κ β : Type*} [DecidableEq κ] {fd : κ → Int} {fault : Option Errno}

/-- The kernel's set holds no channel but those that the flags say are in it. -/
def HeldAdded (s : LoopState κ) : Prop := ∀ f i, s.kernel f = some i → (s.channel i.ptr).flag = .kAdded

/-- No call that failed was a `DEL`. -/
def NoDelFailed (s : LoopState κ) : Prop := ∀ x ∈ s.failed, x.1 ≠ .DEL

variable {s s' : LoopState κ} {c : κ}

theorem changeEvents_held {f : BitVec 32 → BitVec 32} (hi : Mapped fd s) (hh : HeldAdded s) (hn : NoDelFailed s')
    (h : Channel.changeEvents fd fault s c f = some s') : HeldAdded s' := by
  obtain ⟨-, op, flag, hctl, k, failed, hk, rfl⟩ := changeEvents_ctl hi rfl h
  -- Of `c` the kernel's set says what the flag says, of the others what it said before.
  have hother : ∀ g i, k g = some i → i.ptr ≠ c → s.kernel g = some i := by
    intro g i hg hne
    cases hk with
    | error => exact hg
    | ok hok =>
      obtain ⟨rfl, -⟩ := epollCtl_ok hok
      by_cases hgc : g = fd c
      · subst hgc
        rw [update_self] at hg
        split at hg
        · cases hg
        · exact absurd (congrArg EpollEvent.ptr (Option.some.inj hg)).symm hne
      · rwa [update_of_ne hgc] at hg
  have hown : ∀ g i, k g = some i → i.ptr = c → flag = .kAdded := by
    rintro g i hg rfl
    cases hctl with
    | add | mod => rfl
    | del =>
      cases hk with
      | error e => exact absurd rfl (hn (.DEL, fd i.ptr, e) (by simp))
      | ok hok =>
        obtain ⟨rfl, -⟩ := epollCtl_ok hok
        by_cases hgc : g = fd i.ptr
        · subst hgc
          simp at hg
        · rw [update_of_ne hgc] at hg
          exact absurd (hi.ptr_fd g i hg).symm hgc
  intro g i hg
  dsimp only at hg ⊢
  by_cases hic : i.ptr = c
  · rw [hic, update_self]
    exact hown g i hg hic
  · rw [update_of_ne hic]
    exact hh g i (hother g i hg hic)

theorem step_held {op : LoopOp κ} (hi : Mapped fd s) (hh : HeldAdded s) (hn : NoDelFailed s')
    (h : s.step fd fault op = some s') : HeldAdded s' := by
  rcases step_cases h with ⟨c, f, -, h⟩ | ⟨c, -, h⟩ | ⟨result, -, -, h⟩
  · exact changeEvents_held hi hh hn h
  · obtain ⟨hf, rfl⟩ := remove_deleted hi h
    intro g i hg
    have hadded := hh g i hg
    have hic : i.ptr ≠ c := by
      rintro rfl
      simp [hf] at hadded
    simpa [hic] using hadded
  · have hp := poll_polled h
    intro g i hg
    obtain ⟨r, hr⟩ := hp.channel i.ptr
    rw [hr]
    exact hh g i (hp.kernel ▸ hg)

theorem step_flag_other {op : LoopOp κ} (hi : Mapped fd s) (hc : c ∉ op.channel?) (h : s.step fd fault op = some s') :
    (s'.channel c).flag = (s.channel c).flag := by
  rcases step_cases h with ⟨d, f, hop, h⟩ | ⟨d, rfl, h⟩ | ⟨result, -, -, h⟩
  · have hcd : c ≠ d := by
      rintro rfl
      cases op <;> cases hop <;> exact hc rfl
    obtain ⟨-, _, _, -, _, _, -, rfl⟩ := changeEvents_ctl hi rfl h
    simp [hcd]
  · have hcd : c ≠ d := by
      rintro rfl
      exact hc rfl
    obtain ⟨-, rfl⟩ := remove_deleted hi h
    simp [hcd]
  · obtain ⟨r, hr⟩ := (poll_polled h).channel c
    rw [hr]

theorem step_noDelFailed {op : LoopOp κ} (h : s.step fd fault op = some s') (hi : Mapped fd s)
    (hn : NoDelFailed s') : NoDelFailed s := by
  rcases step_cases h with ⟨c, f, -, h⟩ | ⟨c, -, h⟩ | ⟨result, -, -, h⟩
  · obtain ⟨-, _, _, -, _, _, hk, rfl⟩ := changeEvents_ctl hi rfl h
    cases hk with
    | ok => exact hn
    | error e => exact fun x hx => hn x (List.mem_append_left _ hx)
  · obtain ⟨-, rfl⟩ := remove_deleted hi h
    exact hn
  · rw [NoDelFailed, (poll_polled h).failed] at hn
    exact hn

namespace EventHandling

variable {s s' : EventHandling κ β} {a : HandlingLabel κ β}

/-- A step of `handleEventImpl` or of `poll` goes through a pointer to the channel. -/
def Touches (s : EventHandling κ β) (a : HandlingLabel κ β) (c : κ) : Prop :=
  match a with
  | .next | .callbackReturns => c ∈ s.handlings.map (·.channel)
  | .channel (.poll (some evs)) _ => ∃ e ∈ evs, ∃ i, s.kernel e.1 = some i ∧ i.ptr = c
  | _ => False

/-- `handleEvent` is called on a channel of which a call is under way. -/
def Reenters (s : EventHandling κ β) : HandlingLabel κ β → Prop
  | .handleEvent c _ => c ∈ s.handlings.map (·.channel)
  | _ => False

/-- `eventHandling_` tells of which channels a call is under way, and a destroyed
channel is not among them and is not added. -/
structure Living (s : EventHandling κ β) : Prop where
  nodup : (s.handlings.map (·.channel)).Nodup
  handling_iff : ∀ c, (s.channel c).eventHandling = true ↔ c ∈ s.handlings.map (·.channel)
  held : HeldAdded s.toLoopState
  destroyed : ∀ c ∈ s.destroyed, (s.channel c).eventHandling = false ∧ (s.channel c).flag = .kNew

omit [DecidableEq κ] in
theorem Living.create : (EventHandling.create : EventHandling κ β).Living := by
  constructor <;> simp [EventHandling.create, LoopState.init, HeldAdded]

theorem setEventHandling_held (h : HeldAdded s.toLoopState) (c : κ) (b : Bool) : HeldAdded (s.setEventHandling c b) :=
  fun f i hf => (s.setEventHandling_channel c i.ptr b).2.1.trans (h f i hf)

/-- A destroyed channel is none that a call begins or ends on. -/
theorem Living.destroyed_set (h : s.Living) {c : κ} (hc : c ∉ s.destroyed) (b : Bool) :
    ∀ d ∈ s.destroyed, ((s.setEventHandling c b).channel d).eventHandling = false ∧
      ((s.setEventHandling c b).channel d).flag = .kNew := by
  intro d hd
  have hdc : d ≠ c := fun heq => hc (heq ▸ hd)
  obtain ⟨-, hflag, heq⟩ := s.setEventHandling_channel c d b
  rw [hflag, heq, if_neg hdc]
  exact h.destroyed d hd

omit [DecidableEq κ] in
theorem Living.not_destroyed (h : s.Living) {c : κ} (hc : c ∈ s.handlings.map (·.channel)) : c ∉ s.destroyed := by
  intro hd
  have := (h.handling_iff c).2 hc
  rw [(h.destroyed c hd).1] at this
  cases this

omit [DecidableEq κ] in
/-- The innermost call goes on. -/
theorem Living.advance {hd : Handling κ β} {hs : List (Handling κ β)} (h : s.Living) (heq : s.handlings = hd :: hs)
    {hd' : Handling κ β} (hc : hd'.channel = hd.channel) : ({ s with handlings := hd' :: hs }).Living := by
  have hmap : (hd' :: hs).map (·.channel) = s.handlings.map (·.channel) := by simp [heq, hc]
  refine ⟨?_, fun c => ?_, h.held, h.destroyed⟩
  · rw [hmap]
    exact h.nodup
  · rw [hmap]
    exact h.handling_iff c

theorem step_living (hi : Mapped fd s.toLoopState) (hn : NoDelFailed s'.toLoopState) (hr : ¬ s.Reenters a)
    (h : s.Living) (hs : (HandlingLoop β fd).step s a = some s') : s'.Living := by
  cases step_inv hs with
  | @handleEvent c receiveTime hrun hc =>
    refine ⟨List.nodup_cons.2 ⟨hr, h.nodup⟩, fun d => ?_, setEventHandling_held h.held c true,
      h.destroyed_set hc true⟩
    change ((s.setEventHandling c true).channel d).eventHandling = true ↔ d ∈ c :: s.handlings.map (·.channel)
    rw [(s.setEventHandling_channel c d true).2.2, List.mem_cons, ← h.handling_iff]
    by_cases hdc : d = c <;> simp [hdc]
  | @test hd hs k heq hpc => exact h.advance heq (hd.test_channel _ _).1
  | @leave hd hs heq hpc =>
    have hnodup := h.nodup
    have hiff := h.handling_iff
    rw [heq, List.map_cons] at hnodup hiff
    rw [List.nodup_cons] at hnodup
    have hlive : hd.channel ∉ s.destroyed := h.not_destroyed (by simp [heq])
    refine ⟨hnodup.2, fun d => ?_, setEventHandling_held h.held hd.channel false, h.destroyed_set hlive false⟩
    change ((s.setEventHandling hd.channel false).channel d).eventHandling = true ↔ _
    rw [(s.setEventHandling_channel hd.channel d false).2.2]
    by_cases hdc : d = hd.channel
    · subst hdc
      simpa using hnodup.1
    · rw [if_neg hdc, hiff d, List.mem_cons, or_iff_right hdc]
  | @callbackReturns hd hs k heq hpc => exact h.advance heq rfl
  | @channel op fault l hrun hc hl =>
    refine ⟨h.nodup, fun d => ?_, step_held hi h.held hn hl, fun d hd => ?_⟩
    · rw [(step_keeps hi hl d).2]
      exact h.handling_iff d
    · rw [(step_keeps hi hl d).2, step_flag_other hi (fun hm => hc d hm hd) hl]
      exact h.destroyed d hd
  | setCallback => exact ⟨h.nodup, h.handling_iff, h.held, h.destroyed⟩
  | @destroy c hrun hc hd =>
    refine ⟨h.nodup, h.handling_iff, h.held, fun d hm => ?_⟩
    rcases List.mem_cons.1 hm with rfl | hm
    · refine ⟨hd.1, ?_⟩
      by_contra hflag
      have := (hi.looped_iff d).2 hflag
      rw [hd.2] at this
      cases this
    · exact h.destroyed d hm

omit [DecidableEq κ] in
/-- No pointer to a destroyed channel is left where the code would follow it. -/
theorem Living.unreached (h : s.Living) (hi : Mapped fd s.toLoopState) {c : κ} (hc : c ∈ s.destroyed) :
    (∀ f, s.channels f ≠ some c) ∧ (∀ f i, s.kernel f = some i → i.ptr ≠ c) ∧
      c ∉ s.handlings.map (·.channel) := by
  have hflag := (h.destroyed c hc).2
  refine ⟨fun f hf => ?_, fun f i hk hic => ?_, fun hm => h.not_destroyed hm hc⟩
  · have hmapped := hi.mapped_fd f c hf
    exact (hi.mapped_iff_ne c).1 (hmapped ▸ hf) hflag
  · have hadded := h.held f i hk
    rw [hic, hflag] at hadded
    cases hadded

omit [DecidableEq κ] in
theorem Living.untouched (h : s.Living) (hi : Mapped fd s.toLoopState) (c : κ) (ht : s.Touches a c) :
    c ∉ s.destroyed := by
  intro hc
  obtain ⟨-, hkernel, hhandling⟩ := h.unreached hi hc
  unfold Touches at ht
  split at ht
  · exact hhandling ht
  · exact hhandling ht
  · obtain ⟨e, -, i, hk, hic⟩ := ht
    exact hkernel e.1 i hk hic
  · exact ht

theorem step_noDelFailed (hi : Mapped fd s.toLoopState) (hn : NoDelFailed s'.toLoopState)
    (hs : (HandlingLoop β fd).step s a = some s') : NoDelFailed s.toLoopState := by
  cases step_inv hs with
  | channel _ _ hl => exact Net.step_noDelFailed hl hi hn
  | _ => exact hn

theorem run_noDelFailed {as : List (HandlingLabel κ β)} (h : (HandlingLoop β fd).Reachable s)
    (hr : (HandlingLoop β fd).run s as = some s') (hn : NoDelFailed s'.toLoopState) : NoDelFailed s.toLoopState :=
  Lts.System.run_back (J := (HandlingLoop β fd).Reachable) (Q := fun s => NoDelFailed s.toLoopState)
    (fun _ _ _ hj hs => hj.step hs) (fun _ _ _ hj hs hq => step_noDelFailed (mapped_of_reachable hj) hq hs) hr h hn

theorem run_living {as : List (HandlingLabel κ β)} (h : (HandlingLoop β fd).Reachable s) (hl : s.Living)
    (hr : (HandlingLoop β fd).run s as = some s') (hn : NoDelFailed s'.toLoopState)
    (hre : (HandlingLoop β fd).Guarded (fun s a => ¬ s.Reenters a) s as) :
    (HandlingLoop β fd).Steps (fun s a _ => ∀ c, s.Touches a c → c ∉ s.destroyed) s as ∧ s'.Living := by
  induction as generalizing s with
  | nil =>
    obtain rfl := Option.some.inj hr
    exact ⟨trivial, hl⟩
  | cons a as ih =>
    obtain ⟨u, h1, h2⟩ := Lts.System.run_cons.1 hr
    have hi := mapped_of_reachable h
    have hu := step_living hi (run_noDelFailed (h.step h1) h2 hn) hre.1 hl h1
    obtain ⟨hsteps, hlast⟩ := ih (h.step h1) hu h2 (hre.2 u h1)
    refine ⟨fun u' h1' => ⟨hl.untouched hi, ?_⟩, hlast⟩
    exact Option.some.inj (h1.symm.trans h1') ▸ hsteps

/-- If no callback reenters `handleEvent` of a channel that is being handled and no
`DEL` fails, a channel that `~Channel` lets go is never touched again: neither by
the `handleEventImpl` that goes on nor by a later poll, whatever callbacks destroy. -/
theorem destroyed_untouched {as : List (HandlingLabel κ β)} (hr : (HandlingLoop β fd).run .create as = some s)
    (hn : NoDelFailed s.toLoopState) (hre : (HandlingLoop β fd).Guarded (fun s a => ¬ s.Reenters a) .create as) :
    (HandlingLoop β fd).Steps (fun s a _ => ∀ c, s.Touches a c → c ∉ s.destroyed) .create as ∧
      ∀ c ∈ s.destroyed, (∀ f, s.channels f ≠ some c) ∧ (∀ f i, s.kernel f = some i → i.ptr ≠ c) ∧
        c ∉ s.handlings.map (·.channel) := by
  obtain ⟨hsteps, hl⟩ := run_living (.init rfl) .create hr hn hre
  exact ⟨hsteps, fun c hc => hl.unreached (mapped_of_reachable (.run (.init rfl) hr)) hc⟩

/-- Of two channels, the close callback of the first disables, removes and destroys the second. -/
def closeRun : List (HandlingLabel Bool Nat) :=
  [.setCallback true .closeCallback (some 1), .channel (.enableReading true) none,
    .channel (.enableWriting false) none, .channel (.poll (some [(4, POLLHUP), (5, POLLOUT)])) none,
    .handleEvent true .invalid, .next, .channel (.disableAll false) none, .channel (.remove false) none,
    .destroy false, .callbackReturns, .next, .next, .next, .next, .channel (.poll (some [(4, POLLIN)])) none]

theorem destroyed_untouched_close : ∃ s, (HandlingLoop Nat fun c : Bool => if c then 4 else 5).run .create closeRun =
      some s ∧
    s.destroyed = [false] ∧ (∀ f i, s.kernel f = some i → i.ptr ≠ false) ∧
    (HandlingLoop Nat fun c : Bool => if c then 4 else 5).Steps (fun s a _ => ∀ c, s.Touches a c → c ∉ s.destroyed)
      .create closeRun := by
  have h : ((HandlingLoop Nat fun c : Bool => if c then 4 else 5).run .create closeRun).map (fun s =>
      (s.destroyed, s.failed.length)) = some ([false], 0) := by decide +kernel
  obtain ⟨s, hs, hv⟩ := Option.map_eq_some_iff.1 h
  simp only [Prod.mk.injEq, List.length_eq_zero_iff] at hv
  obtain ⟨hd, hfailed⟩ := hv
  have hn : NoDelFailed s.toLoopState := by
    rw [NoDelFailed, hfailed]
    simp
  -- Only the fifth step is a call of `handleEvent`.
  have hre : (HandlingLoop Nat fun c : Bool => if c then 4 else 5).Guarded (fun s a => ¬ s.Reenters a) .create
      closeRun := by
    refine .of_step rfl id (.of_step rfl id (.of_step rfl id (.of_step rfl id (.of_step rfl List.not_mem_nil ?_))))
    exact .of_labels (by simp [Reenters])
  obtain ⟨hsteps, hgone⟩ := destroyed_untouched hs hn hre
  exact ⟨s, hs, hd, (hgone false (by simp [hd])).2.1, hsteps⟩

/-- A read callback that handles its channel's events again and then destroys the channel. -/
example : ((HandlingLoop Nat fun _ : Unit => 5).run .create
      [.setCallback () .readCallback (some 1), .channel (.enableReading ()) none,
        .channel (.poll (some [(5, POLLIN)])) none, .handleEvent () .invalid, .next, .next, .next,
        .handleEvent () .invalid, .next, .next, .next, .callbackReturns, .next, .next,
        .channel (.disableAll ()) none, .channel (.remove ()) none, .destroy ()]).map
      (fun s => (s.destroyed, s.handlings.map (·.channel))) = some ([()], [()]) := by decide +kernel

/-- A failed `DEL` leaves the address of a destroyed channel in the kernel's set. -/
example : ((HandlingLoop Nat fun _ : Unit => 5).run .create
      [.channel (.enableReading ()) none, .channel (.disableAll ()) (some .ENOMEM), .channel (.remove ()) none,
        .destroy ()]).map (fun s => (s.destroyed, (s.kernel 5).map (·.ptr))) = some ([()], some ()) := by
  decide +kernel

end EventHandling

end Ycnt.Net

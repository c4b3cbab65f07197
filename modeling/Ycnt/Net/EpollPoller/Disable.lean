import Ycnt.Net.EpollPoller.Mapped
/-!
# Taking interest away

`EpollPoller::updateChannel` asserts that a channel outside the kernel's set is
updated with some interest only, so the functions that take interest away are
for channels that have some.
-/

namespace Ycnt.Net

open Function Linux

variable {κ : Type*} [DecidableEq κ] {fd : κ → Int} {fault : Option Errno} {s s' : LoopState κ} {c : κ}

/-- The operations on `c` that only take interest away. -/
def Disables (c : κ) (op : LoopOp κ) : Prop := op = .disableReading c ∨ op = .disableWriting c ∨ op = .disableAll c

omit [DecidableEq κ] in
theorem Disables.change {op : LoopOp κ} (h : Disables c op) :
    ∃ f, op.change = some (c, f) ∧ f kNoneEvent = kNoneEvent := by
  rcases h with rfl | rfl | rfl
  · exact ⟨_, rfl, by decide⟩
  · exact ⟨_, rfl, by decide⟩
  · exact ⟨_, rfl, rfl⟩

/-! ## Which operations meet the assertions -/

/-- A channel in the kernel's set may be updated with any interest. -/
theorem changeEvents_added (fault : Option Errno) (f : BitVec 32 → BitVec 32) (hi : Mapped fd s) (hf : (s.channel c).flag = .kAdded) :
    (Channel.changeEvents fd fault s c f).isSome := by
  have hc := (hi.mapped_iff c).2 (.inl hf)
  simp only [Channel.changeEvents, Channel.update, EventLoop.updateChannel, EpollPoller.updateChannel,
    LoopState.setChannel, update_self, update_idem, hf, hc, if_true]
  split <;> rfl

/-- One outside it only with some. -/
theorem changeEvents_isSome_iff (fault : Option Errno) (c : κ) {f : BitVec 32 → BitVec 32} (hi : Mapped fd s) (hf : f kNoneEvent = kNoneEvent) :
    (Channel.changeEvents fd fault s c f).isSome ↔ (s.channel c).flag = .kAdded := by
  refine ⟨fun h => ?_, changeEvents_added fault f hi⟩
  obtain ⟨s', hs⟩ := Option.isSome_iff_exists.1 h
  obtain ⟨-, op, flag, hctl, -⟩ := changeEvents_ctl hi rfl hs
  cases hctl with
  | mod hadded | del hadded => exact hadded
  | add hnot he =>
    refine (hi.added_iff c).2 fun hnone => he ?_
    rw [hnone, hf]

theorem remove_isSome_iff (fault : Option Errno) (c : κ) (hi : Mapped fd s) :
    (Channel.remove fd fault s c).isSome ↔ (s.channel c).flag = .kDeleted := by
  constructor
  · intro h
    obtain ⟨s', hs⟩ := Option.isSome_iff_exists.1 h
    exact (remove_deleted hi hs).1
  · intro hf
    have hc := (hi.mapped_iff c).2 (.inr hf)
    have he : (s.channel c).events = kNoneEvent := by
      by_contra he
      exact absurd ((hi.added_iff c).2 he) (by simp [hf])
    simp [Channel.remove, EventLoop.removeChannel, EpollPoller.removeChannel, LoopState.setChannel, Channel.isNoneEvent,
      hi.not_handling, he, hc, hf]

/-! ## What they leave alone -/

/-- While no call has failed, the kernel keeps for a channel its current mask. -/
def Current (fd : κ → Int) (s : LoopState κ) : Prop :=
  s.failed = [] → ∀ c, (s.channel c).flag = .kAdded → s.kernel (fd c) = some ⟨(s.channel c).events, c⟩

theorem step_current {op : LoopOp κ} (hi : Mapped fd s) (hcur : Current fd s) (h : s.step fd fault op = some s') :
    Current fd s' := by
  rcases step_cases h with ⟨c, f, -, h⟩ | ⟨c, -, h⟩ | ⟨result, -, -, h⟩
  · obtain ⟨hm, op, flag, hctl, k, failed, hk, rfl⟩ := changeEvents_ctl hi rfl h
    intro hf d hd
    cases hk with
    | error e => simp at hf
    | ok hok =>
      obtain ⟨rfl, -⟩ := epollCtl_ok hok
      by_cases hdc : d = c
      · subst hdc
        simp only [update_self] at hd ⊢
        cases hctl with
        | add | mod => rfl
        | del => cases hd
      · simp only [ne_eq, hdc, not_false_eq_true, update_of_ne] at hd ⊢
        have hfd : fd d ≠ fd c := fun hfd => hdc (hm d (hfd ▸ (hi.mapped_iff d).2 (.inl hd)))
        rw [update_of_ne hfd]
        exact hcur hf d hd
  · obtain ⟨-, rfl⟩ := remove_deleted hi h
    intro hf d hd
    by_cases hdc : d = c
    · subst hdc
      simp at hd
    · simp only [ne_eq, hdc, not_false_eq_true, update_of_ne] at hd ⊢
      exact hcur hf d hd
  · have hp := poll_polled h
    intro hf d hd
    obtain ⟨r, hr⟩ := hp.channel d
    rw [hr] at hd ⊢
    rw [hp.kernel]
    exact hcur (hp.failed ▸ hf) d hd

theorem reachable_current (h : (FaultyLoop fd).Reachable s) : Current fd s := by
  refine h.inv_of (J := Mapped fd) (I := Current fd) (fun _ => reachable_mapped) (fun t ht => ?_)
    fun _ _ _ hi hcur hs => step_current hi hcur hs
  obtain rfl : t = .init := ht
  intro _ c hc
  cases hc

/-- An update that does not change the mask of a channel in the kernel's set does
not change what is registered. -/
theorem changeEvents_same {f : BitVec 32 → BitVec 32} (hi : Mapped fd s) (hf : (s.channel c).flag = .kAdded)
    (h : Channel.changeEvents fd fault s c f = some s') (he : (s'.channel c).events = (s.channel c).events) :
    s'.channels = s.channels ∧
      (s'.kernel = s.kernel ∨ s.kernel (fd c) ≠ none ∧
        s'.kernel = update s.kernel (fd c) (some ⟨(s.channel c).events, c⟩)) := by
  have hc := (hi.mapped_iff c).2 (.inl hf)
  obtain ⟨-, op, flag, hctl, k, failed, hk, rfl⟩ := changeEvents_ctl hi rfl h
  dsimp only at he
  rw [update_self] at he
  dsimp only [Channel.registered] at he
  refine ⟨by rw [← hc, update_eq_self], ?_⟩
  rw [he] at hctl hk
  cases hctl with
  | add hnot => exact absurd hf hnot
  | del _ hnone => exact absurd hnone ((hi.added_iff c).1 hf)
  | mod =>
    cases hk with
    | error => exact .inl rfl
    | ok hok =>
      obtain ⟨rfl, hfree⟩ := epollCtl_ok hok
      exact .inr ⟨by simpa using hfree, rfl⟩

theorem disableAll_deleted (hi : Mapped fd s) (h : Channel.disableAll fd fault s c = some s') :
    (s'.channel c).flag = .kDeleted := by
  obtain ⟨-, op, flag, hctl, _, _, -, rfl⟩ := changeEvents_ctl hi rfl h
  dsimp only
  rw [update_self]
  cases hctl with
  | add _ he | mod _ he => exact absurd rfl he
  | del => rfl

/-- The functions that take interest away meet the poller's assertions exactly for
a channel that is in the kernel's set. There a call that does not change the mask
changes neither `channels_` nor what is registered. A second `disableAll` is one
call too many, and `disableAll(); remove();` is for a channel that has some
interest left, as `remove();` alone is for one that has none. -/
theorem disable_iff_added (h : (FaultyLoop fd).Reachable s) (c : κ) :
    (∀ op, Disables c op → ∀ fault,
      ((s.step fd fault op).isSome ↔ (s.channel c).flag = .kAdded) ∧
      ∀ s', s.step fd fault op = some s' → (s'.channel c).events = (s.channel c).events →
        s'.channels = s.channels ∧ (∀ f, (s'.kernel f).isSome = (s.kernel f).isSome) ∧
          (s.failed = [] → s'.kernel = s.kernel)) ∧
    (∀ fault s', s.step fd fault (.disableAll c) = some s' → ∀ fault', s'.step fd fault' (.disableAll c) = none) ∧
    (∀ fault fault', ((s.step fd fault (.disableAll c)).bind fun s' => s'.step fd fault' (.remove c)).isSome ↔
      (s.channel c).flag = .kAdded) ∧
    ∀ fault, (s.step fd fault (.remove c)).isSome ↔ (s.channel c).flag = .kDeleted := by
  have hi := reachable_mapped h
  refine ⟨fun op hop fault => ?_, fun fault s' hs fault' => ?_, fun fault fault' => ?_, fun fault => remove_isSome_iff fault c hi⟩
  · obtain ⟨f, hchange, hf⟩ := hop.change
    rw [step_change hchange]
    have hiff := changeEvents_isSome_iff fault c hi hf
    refine ⟨hiff, fun s' hs he => ?_⟩
    have hadded := hiff.1 (by rw [hs]; rfl)
    obtain ⟨hm, hk⟩ := changeEvents_same hi hadded hs he
    refine ⟨hm, fun g => ?_, fun hnone => ?_⟩
    · rcases hk with hk | ⟨hne, hk⟩
      · rw [hk]
      · rw [hk]
        by_cases hg : g = fd c
        · subst hg
          rw [update_self, Option.isSome_some, Option.isSome_iff_ne_none.2 hne]
        · rw [update_of_ne hg]
    · rcases hk with hk | ⟨-, hk⟩
      · exact hk
      · rw [hk, ← reachable_current h hnone c hadded, update_eq_self]
  · have hdeleted := disableAll_deleted hi hs
    have hiff := changeEvents_isSome_iff fault' c (f := fun _ => kNoneEvent) (step_mapped hi hs) rfl
    rw [← Option.not_isSome_iff_eq_none]
    intro hsome
    exact absurd (hiff.1 hsome) (by simp [hdeleted])
  · rw [← changeEvents_isSome_iff fault c (f := fun _ => kNoneEvent) hi rfl]
    constructor
    · intro hsome
      cases hs : s.step fd fault (.disableAll c) with
      | none => simp [hs] at hsome
      | some s' => exact Option.isSome_iff_exists.2 ⟨s', hs⟩
    · intro hsome
      obtain ⟨s', hs⟩ := Option.isSome_iff_exists.1 hsome
      have hs' : s.step fd fault (.disableAll c) = some s' := hs
      rw [hs', Option.bind_some]
      exact (remove_isSome_iff fault' c (step_mapped hi hs')).2 (disableAll_deleted hi hs)

/-- A channel with interest in reading only: `disableWriting` changes nothing, and
`disableAll(); remove();` is accepted. -/
theorem disable_iff_added_reading : ∃ s, (FaultyLoop fun _ : Unit => 5).run .init [(.enableReading (), none)] = some s ∧
    (s.step (fun _ => 5) none (.disableWriting ())).isSome ∧
    ((s.step (fun _ => 5) none (.disableAll ())).bind fun s' => s'.step (fun _ => 5) none (.remove ())).isSome := by
  obtain ⟨s, hs, hf⟩ : ∃ s, (FaultyLoop fun _ : Unit => 5).run .init [(.enableReading (), none)] = some s ∧
      (s.channel ()).flag = .kAdded := ⟨_, rfl, rfl⟩
  obtain ⟨hdisable, -, hremove, -⟩ := disable_iff_added ((Lts.System.Reachable.init rfl).run hs) ()
  exact ⟨s, hs, (hdisable _ (.inr (.inl rfl)) none).1.2 hf, (hremove none none).2 hf⟩

/-- A channel that was never added, and one whose interest has been removed
already: taking interest away fails an assertion, and so does `disableAll(); remove();`. -/
theorem disable_absent :
    ((LoopState.init : LoopState Unit).step (fun _ => 5) none (.disableReading ())) = none ∧
    ∃ s, (FaultyLoop fun _ : Unit => 5).run .init [(.enableReading (), none), (.disableAll (), none)] = some s ∧
      s.step (fun _ => 5) none (.disableAll ()) = none ∧
      ((s.step (fun _ => 5) none (.disableAll ())).bind fun s' => s'.step (fun _ => 5) none (.remove ())) = none :=
  ⟨rfl, _, rfl, rfl, rfl⟩

end Ycnt.Net

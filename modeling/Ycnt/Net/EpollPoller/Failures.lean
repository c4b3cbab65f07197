import Ycnt.Net.EpollPoller.Mapped
/-!
# What a failing `epoll_ctl` leaves behind

`updateInEpoll` logs a failure and its callers go on as if the call had
succeeded. A failing `ADD` or `DEL` therefore parts the flag from the kernel's
set, a failing `MOD` does not, and nothing else does.
-/

namespace Ycnt.Net

open Function Linux

variable {κ : Type*} [DecidableEq κ] {fd : κ → Int} {fault : Option Errno} {s s' : LoopState κ} {c : κ}

/-- The flag of a channel says whether the kernel's set holds its descriptor for it. -/
def Agrees (fd : κ → Int) (s : LoopState κ) : Prop :=
  ∀ c, (s.channel c).flag = .kAdded ↔ ∃ i, s.kernel (fd c) = some i ∧ i.ptr = c

/-- No call that failed was an `ADD` or a `DEL`. -/
def OnlyModFailed (s : LoopState κ) : Prop := ∀ x ∈ s.failed, x.1 = .MOD

omit [DecidableEq κ] in
/-- Where the flags agree with the kernel, the kernel holds a descriptor that is
`c`'s own or free in `channels_` for no other channel. -/
theorem Agrees.own (ha : Agrees fd s) (hi : Mapped fd s) (hm : ∀ d, s.channels (fd c) = some d → d = c)
    {i : EpollEvent κ} (hk : s.kernel (fd c) = some i) : i.ptr = c := by
  have hfd := hi.ptr_fd _ _ hk
  have hadded := (ha i.ptr).2 ⟨i, hfd ▸ hk, rfl⟩
  exact hm _ (hfd ▸ (hi.mapped_iff i.ptr).2 (.inl hadded))

/-- After an operation on `c`, the agreement is a matter of `c` alone. -/
theorem agrees_iff (ch : Channel) (m : Int → Option κ) (failed : List (EpollOp × Int × Errno))
    {x : Option (EpollEvent κ)} (ha : Agrees fd s)
    (hown : ∀ i, s.kernel (fd c) = some i → i.ptr = c) (hx : ∀ i, x = some i → i.ptr = c) :
    Agrees fd { s with
      channel := update s.channel c ch
      channels := m
      kernel := update s.kernel (fd c) x
      failed := failed } ↔ (ch.flag = .kAdded ↔ x.isSome) := by
  constructor
  · intro h
    have hc := h c
    simp only [update_self] at hc
    rw [hc, Option.isSome_iff_exists]
    exact ⟨fun ⟨i, hi, _⟩ => ⟨i, hi⟩, fun ⟨i, hi⟩ => ⟨i, hi, hx i hi⟩⟩
  · intro h d
    by_cases hdc : d = c
    · subst hdc
      simp only [update_self]
      rw [h, Option.isSome_iff_exists]
      exact ⟨fun ⟨i, hi⟩ => ⟨i, hi, hx i hi⟩, fun ⟨i, hi, _⟩ => ⟨i, hi⟩⟩
    · simp only [ne_eq, hdc, not_false_eq_true, update_of_ne]
      by_cases hfd : fd d = fd c
      · rw [hfd, update_self, ha d, hfd]
        -- The descriptor is in the set for `c` before and after, if at all.
        refine iff_of_false ?_ ?_
        · rintro ⟨i, hi, rfl⟩
          exact hdc (hown i hi)
        · rintro ⟨i, hi, rfl⟩
          exact hdc (hx i hi)
      · rw [update_of_ne hfd]
        exact ha d

/-- While the flags agree, a change of an interest set keeps the agreement unless
its call is an `ADD` or a `DEL` that fails. -/
theorem changeEvents_agrees {f : BitVec 32 → BitVec 32} (hi : Mapped fd s) (ha : Agrees fd s) (hq : OnlyModFailed s)
    (h : Channel.changeEvents fd fault s c f = some s') : Agrees fd s' ↔ OnlyModFailed s' := by
  obtain ⟨hm, op, flag, hctl, k, failed, hk, rfl⟩ := changeEvents_ctl hi rfl h
  have hown : ∀ i, s.kernel (fd c) = some i → i.ptr = c := fun i hk => ha.own hi hm hk
  have hadded : (s.channel c).flag = .kAdded ↔ (s.kernel (fd c)).isSome := by
    rw [ha c, Option.isSome_iff_exists]
    exact ⟨fun ⟨i, hi, _⟩ => ⟨i, hi⟩, fun ⟨i, hi⟩ => ⟨i, hi, hown i hi⟩⟩
  cases hk with
  | ok hok =>
    obtain ⟨rfl, -⟩ := epollCtl_ok hok
    refine iff_of_true ?_ hq
    rw [agrees_iff _ _ _ ha hown]
    · cases hctl <;> simp [Channel.registered]
    · intro i hx
      split at hx
      · cases hx
      · rw [← Option.some.inj hx]
  | error e =>
    have hlast : OnlyModFailed { s with failed := s.failed ++ [(op, fd c, e)] } ↔ op = .MOD := by
      simp only [OnlyModFailed, List.forall_mem_append, List.forall_mem_singleton]
      exact and_iff_right hq
    have hkeep := agrees_iff ((s.channel c).registered (f (s.channel c).events) flag)
      (update s.channels (fd c) (some c)) (s.failed ++ [(op, fd c, e)]) ha hown hown
    rw [update_eq_self] at hkeep
    refine hkeep.trans (Iff.trans ?_ hlast.symm)
    rw [← hadded]
    cases hctl with
    | add hf => simp [Channel.registered, hf]
    | mod hf => simp [Channel.registered, hf]
    | del hf => simp [Channel.registered, hf]

theorem step_agrees {op : LoopOp κ} (hi : Mapped fd s) (ha : Agrees fd s) (hq : OnlyModFailed s)
    (h : s.step fd fault op = some s') : Agrees fd s' ↔ OnlyModFailed s' := by
  rcases step_cases h with ⟨c, f, -, h⟩ | ⟨c, -, h⟩ | ⟨result, -, -, h⟩
  · exact changeEvents_agrees hi ha hq h
  · obtain ⟨hf, rfl⟩ := remove_deleted hi h
    refine iff_of_true (fun d => ?_) hq
    by_cases hdc : d = c
    · subst hdc
      rw [← ha d]
      simp [hf]
    · simpa only [ne_eq, hdc, not_false_eq_true, update_of_ne] using ha d
  · have hp := poll_polled h
    refine iff_of_true (fun d => ?_) fun x hx => hq x (hp.failed ▸ hx)
    obtain ⟨r, hr⟩ := hp.channel d
    rw [hr, hp.kernel]
    exact ha d

/-- A step adds at most its own call to the log, and then the kernel's set is as it was. -/
theorem step_failed {op : LoopOp κ} (hi : Mapped fd s) (h : s.step fd fault op = some s') :
    s'.failed = s.failed ∨
      ∃ c ctl e, Ctl (s.channel c).flag (s'.channel c).events ctl (s'.channel c).flag ∧
        s'.failed = s.failed ++ [(ctl, fd c, e)] ∧ s'.kernel = s.kernel ∧
        (∀ d, d ≠ c → s'.channel d = s.channel d) ∧ s'.channels = update s.channels (fd c) (some c) := by
  rcases step_cases h with ⟨c, f, -, h⟩ | ⟨c, -, h⟩ | ⟨result, -, -, h⟩
  · obtain ⟨-, op, flag, hctl, k, failed, hk, rfl⟩ := changeEvents_ctl hi rfl h
    cases hk with
    | ok => exact .inl rfl
    | error e =>
      refine .inr ⟨c, op, e, ?_, rfl, rfl, fun d hd => update_of_ne hd _ _, rfl⟩
      dsimp only
      rw [update_self]
      exact hctl
  · obtain ⟨-, rfl⟩ := remove_deleted hi h
    exact .inl rfl
  · exact .inl (poll_polled h).failed

/-- The fields of the channels and `channels_` do not depend on the kernel's answer. -/
theorem step_answer {op : LoopOp κ} {fault₁ fault₂ : Option Errno} {s₁ s₂ : LoopState κ} (hi : Mapped fd s)
    (h₁ : s.step fd fault₁ op = some s₁) (h₂ : s.step fd fault₂ op = some s₂) :
    s₁.channel = s₂.channel ∧ s₁.channels = s₂.channels := by
  rcases step_cases h₁ with ⟨c, f, hop, h⟩ | ⟨c, rfl, h⟩ | ⟨result, rfl, -, h⟩
  · rw [step_change hop] at h₂
    obtain ⟨-, op₁, flag₁, hctl₁, _, _, -, rfl⟩ := changeEvents_ctl hi rfl h
    obtain ⟨-, op₂, flag₂, hctl₂, _, _, -, rfl⟩ := changeEvents_ctl hi rfl h₂
    obtain rfl := hctl₁.flag_eq hctl₂
    exact ⟨rfl, rfl⟩
  · obtain ⟨-, rfl⟩ := remove_deleted hi h
    obtain ⟨-, rfl⟩ := remove_deleted hi h₂
    exact ⟨rfl, rfl⟩
  · obtain rfl : s₁ = s₂ := Option.some.inj (h₁.symm.trans h₂)
    exact ⟨rfl, rfl⟩

/-- A failing call is only logged: the kernel's set stays as it was, and the flag
and `channels_` go on as if the call had succeeded, which keeps them as they were
for a `MOD` only. A run keeps the flags and the kernel's set in agreement exactly
when no `ADD` and no `DEL` fails in it. -/
theorem failed_ctl_only_logged {as : List (LoopOp κ × Option Errno)} (hr : (FaultyLoop fd).run .init as = some s) :
    (∀ op fault s', s.step fd fault op = some s' → s'.failed ≠ s.failed →
      s'.kernel = s.kernel ∧
      (∀ s'', s.step fd none op = some s'' → s''.channel = s'.channel ∧ s''.channels = s'.channels) ∧
      ∃ c ctl e, s'.failed = s.failed ++ [(ctl, fd c, e)] ∧ s'.channels = update s.channels (fd c) (some c) ∧
        (ctl = .ADD ∧ (s.channel c).flag ≠ .kAdded ∧ (s'.channel c).flag = .kAdded ∨
          ctl = .MOD ∧ (s.channel c).flag = .kAdded ∧ (s'.channel c).flag = .kAdded ∧ s'.channels = s.channels ∨
          ctl = .DEL ∧ (s.channel c).flag = .kAdded ∧ (s'.channel c).flag = .kDeleted ∧ s'.channels = s.channels)) ∧
    ((FaultyLoop fd).Always (Agrees fd) .init as ↔ OnlyModFailed s) := by
  have hi := reachable_mapped (.run (.init rfl) hr)
  refine ⟨fun op fault s' h hf => ?_, ?_⟩
  · rcases step_failed hi h with hf' | ⟨c, ctl, e, hctl, hfailed, hk, -, hm⟩
    · exact absurd hf' hf
    · refine ⟨hk, fun s'' h'' => step_answer hi h'' h, c, ctl, e, hfailed, hm, ?_⟩
      have hsame : (s.channel c).flag = .kAdded → s'.channels = s.channels := by
        intro hadded
        rw [hm, ← (hi.mapped_iff c).2 (.inl hadded), update_eq_self]
      generalize (s'.channel c).flag = flag at hctl ⊢
      cases hctl with
      | add hnot => exact .inl ⟨rfl, hnot, rfl⟩
      | mod hadded => exact .inr (.inl ⟨rfl, hadded, rfl, hsame hadded⟩)
      | del hadded => exact .inr (.inr ⟨rfl, hadded, rfl, hsame hadded⟩)
  · refine Lts.System.always_iff_last (J := Mapped fd) (fun _ _ _ hi h => step_mapped hi h) (fun s a s' hi h hq => ?_)
      (fun _ _ _ hi ha h hq => step_agrees hi ha hq h) hr init_mapped ?_ ?_
    · rcases step_failed hi h with hf | ⟨c, ctl, e, -, hf, -⟩
      · exact fun x hx => hq x (hf ▸ hx)
      · exact fun x hx => hq x (by simp [hf, hx])
    · intro c
      simp [LoopState.init]
    · intro x hx
      cases hx

/-- A `MOD` that fails. -/
theorem failed_mod_agrees : ∃ s, (FaultyLoop fun _ : Unit => 5).run .init
      [(.enableReading (), none), (.enableWriting (), some .ENOMEM)] = some s ∧
    (FaultyLoop fun _ : Unit => 5).Always (Agrees fun _ => 5) .init
      [(.enableReading (), none), (.enableWriting (), some .ENOMEM)] := by
  refine ⟨_, rfl, (failed_ctl_only_logged rfl).2.2 fun x hx => ?_⟩
  obtain rfl := List.mem_singleton.1 hx
  rfl

/-- An `ADD` that fails: the flag is `kAdded` now, `channels_` holds the channel,
and the kernel's set does not hold its descriptor. -/
theorem failed_add_disagrees : ∃ s, (FaultyLoop fun _ : Unit => 5).run .init [(.enableReading (), some .ENOMEM)] = some s ∧
    s.failed = [(.ADD, 5, .ENOMEM)] ∧ (LoopState.init.channel ()).flag = .kNew ∧ (s.channel ()).flag = .kAdded ∧
    s.channels 5 = some () ∧ ¬ ((s.channel ()).flag = .kAdded ↔ (s.kernel 5).isSome) :=
  ⟨_, rfl, rfl, rfl, rfl, rfl, by decide⟩

end Ycnt.Net

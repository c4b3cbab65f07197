import Ycnt.Base.File
/-!
# Short writes

`AppendFile::append` when `fwrite_unlocked` takes less than it is given. What is
taken is a prefix of the line (`append_stops`). `writtenBytes_` grows by the whole
line all the same.
-/

namespace Ycnt.AppendFile

open Function Total

variable {file : AppendFile} {disk : Disk} {logline : Bytes} {fwrite : Nat → Nat} {len : Nat}

/-! ## One line -/

/-- What `append` owes for a line: it ends, what the stream takes is a prefix of the
line, all of it unless a retry takes nothing, and `writtenBytes_` grows by as much. -/
def CountsTaken (file : AppendFile) (disk : Disk) (logline : Bytes) (fwrite : Nat → Nat) : Prop :=
  ∃ file' n, file.append disk logline fwrite = some (file', file.wrote disk logline n) ∧ n ≤ logline.length ∧
    (n = logline.length ∨ ∃ k, 1 ≤ k ∧ fwrite k = 0) ∧ file'.writtenBytes = file.writtenBytes + n

/-- The counter is right about `n` bytes of a line exactly if they are all of it and fit. -/
theorem counter_iff {w n : Nat} (hn : n ≤ len) (hlen : len < 2 ^ 64) :
    (w + len) % 2 ^ 64 = w + n ↔ n = len ∧ w + len < 2 ^ 64 := by
  omega

theorem wrote_injective {n n' : Nat} (hn : n ≤ logline.length) (hn' : n' ≤ logline.length)
    (h : file.wrote disk logline n = file.wrote disk logline n') : n = n' := by
  have hlength := congrArg (fun d => (d file.filename).length) h
  simp only [wrote, update_self, List.length_append, List.length_take] at hlength
  omega

theorem countsTaken_iff (hlen : logline.length < 2 ^ 64) :
    CountsTaken file disk logline fwrite ↔
      NoZeroRetry fwrite logline.length ∧ file.writtenBytes + logline.length < 2 ^ 64 := by
  obtain ⟨r, hr, k, hk, rfl⟩ := append_stops file disk logline fwrite
  have hle := taken_le fwrite logline.length k
  rw [← hk.whole_iff, ← counter_iff hle hlen]
  constructor
  · rintro ⟨file', n, h, hn, -, hcount⟩
    rw [hr, Option.some.injEq, Prod.mk.injEq] at h
    obtain ⟨rfl, hw⟩ := h
    rw [wrote_injective hle hn hw]
    exact hcount
  · intro hcount
    refine ⟨_, _, hr, hle, ?_, hcount⟩
    rcases hk.2.2 with hwhole | hzero
    · exact .inl hwhole
    · exact .inr ⟨k, hk.1, hzero⟩

/-! ## A run of lines -/

/-- The calls of `append` on one file, each with the results of its
`fwrite_unlocked`. The length of a line is a `size_t`. -/
def Appending : Lts.System (AppendFile × Disk) (Bytes × (Nat → Nat)) where
  init s := ∃ filename, create filename true = some s.1
  step s a := if a.1.length < 2 ^ 64 then s.1.append s.2 a.1 a.2 else none

/-- `writtenBytes_` is what the file has taken since it held what it holds in `before`. -/
def CountsFile (before : Disk) (s : AppendFile × Disk) : Prop :=
  (s.2 s.1.filename).length = (before s.1.filename).length + s.1.writtenBytes

/-- The line is taken whole, and the counter has room for it. -/
def Counted (s : AppendFile × Disk) (a : Bytes × (Nat → Nat)) : Prop :=
  NoZeroRetry a.2 a.1.length ∧ s.1.writtenBytes + a.1.length < 2 ^ 64

theorem step_countsFile {before : Disk} {s s' : AppendFile × Disk} {a : Bytes × (Nat → Nat)}
    (hc : CountsFile before s) (h : Appending.step s a = some s') : CountsFile before s' ↔ Counted s a := by
  simp only [Appending, Option.ite_none_right_eq_some] at h
  obtain ⟨hlen, h⟩ := h
  obtain ⟨r, hr, k, hk, rfl⟩ := append_stops s.1 s.2 a.1 a.2
  obtain rfl := Option.some.inj (hr.symm.trans h)
  have hle := taken_le a.2 a.1.length k
  rw [Counted, ← hk.whole_iff, ← counter_iff hle hlen]
  rw [CountsFile] at hc
  simp only [CountsFile, wrote, update_self, List.length_append, List.length_take, hc]
  omega

/-- A call of `append` keeps its promise exactly if no retry takes nothing while
bytes remain and the counter does not wrap, and then only does a run of calls keep
`writtenBytes_` at what the file has taken. -/
theorem append_counts_iff (before : Disk) {s t : AppendFile × Disk} {as : List (Bytes × (Nat → Nat))}
    (hs : CountsFile before s) (hr : Appending.run s as = some t) :
    (∀ file disk logline fwrite, logline.length < 2 ^ 64 → (CountsTaken file disk logline fwrite ↔
      NoZeroRetry fwrite logline.length ∧ file.writtenBytes + logline.length < 2 ^ 64)) ∧
      (Appending.Always (CountsFile before) s as ↔ Appending.Guarded Counted s as) := by
  refine ⟨fun _ _ _ _ hlen => countsTaken_iff hlen, ?_⟩
  exact Lts.System.always_iff_guarded (J := fun _ => True) (fun _ _ _ _ _ => trivial)
    (fun _ _ _ _ hc h => step_countsFile hc h) hr trivial hs

/-- A line in two pieces. -/
theorem append_counts_pieces : ∃ t, Appending.run (⟨[97], 0⟩, fun _ => []) [([1, 2, 3], fun k => 2 - k)] = some t ∧
    CountsTaken ⟨[97], 0⟩ (fun _ => []) [1, 2, 3] (fun k => 2 - k) ∧
    Appending.Always (CountsFile fun _ => []) (⟨[97], 0⟩, fun _ => []) [([1, 2, 3], fun k => 2 - k)] := by
  have hno : NoZeroRetry (fun k => 2 - k) 3 := by
    intro k hk hlt
    have htwo : ¬ 2 ≤ k := fun h => absurd (taken_mono (fun k => 2 - k) 3 h) (not_le.2 hlt)
    change 2 - k ≠ 0
    omega
  obtain ⟨t, ht⟩ : ∃ t, Appending.run (⟨[97], 0⟩, fun _ => []) [([1, 2, 3], fun k => 2 - k)] = some t := ⟨_, rfl⟩
  obtain ⟨hcall, hrun⟩ := append_counts_iff (fun _ => []) (s := (⟨[97], 0⟩, fun _ => [])) rfl ht
  exact ⟨t, ht, (hcall _ _ _ _ (by decide)).2 ⟨hno, by decide⟩, hrun.2 ⟨⟨hno, by decide⟩, fun _ _ => trivial⟩⟩

/-- A retry takes nothing: the file has 2 bytes of the line, and `writtenBytes_` is 3. -/
theorem append_counts_too_much : ∃ t, Appending.run (⟨[97], 0⟩, fun _ => [])
      [([1, 2, 3], fun k => if k = 0 then 2 else 0)] = some t ∧
    t.2 [97] = [1, 2] ∧ t.1.writtenBytes = 3 ∧
    ¬ CountsTaken ⟨[97], 0⟩ (fun _ => []) [1, 2, 3] (fun k => if k = 0 then 2 else 0) := by
  refine ⟨_, rfl, rfl, rfl, ?_⟩
  rintro ⟨file', n, h, -, -, hcount⟩
  have hthree : some 3 = some file'.writtenBytes := congrArg (Option.map fun r : AppendFile × Disk => r.1.writtenBytes) h
  have htwo : some 2 = some (wrote ⟨[97], 0⟩ (fun _ => []) [1, 2, 3] n [97]).length :=
    congrArg (Option.map fun r : AppendFile × Disk => (r.2 [97]).length) h
  simp only [wrote, update_self, List.nil_append, List.length_take, List.length_cons, List.length_nil,
    Option.some.injEq] at hthree htwo
  dsimp only at hcount
  omega

end Ycnt.AppendFile

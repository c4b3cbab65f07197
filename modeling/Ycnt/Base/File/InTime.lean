import Ycnt.Base.File
/-!
# Rolling in time

When `LogFile::append` rolls, under a clock that does not go back: a file gets too
long only in the second of its opening, and what comes after midnight goes to
yesterday's file until `count_` is through.
-/

namespace Ycnt

/-- What a call reads from the clock. -/
def LogFileLabel.time : LogFileLabel → Option Int
  | .append call => some call.time
  | .flush => none
  | .rollFile a => some a.time

namespace LogFile

variable {s s' : LogFile} {rollSize : Nat} {checkEveryN now : Int}

/-! ## What an append does -/

/-- The fields that decide when to roll, by the second `now`. -/
structure Dated (rollSize : Nat) (checkEveryN now : Int) (s : LogFile) : Prop where
  rollSize_eq : s.rollSize = rollSize
  checkEveryN_eq : s.checkEveryN = checkEveryN
  count_mem : 0 ≤ s.count ∧ s.count < checkEveryN
  period_eq : s.startOfPeriod = period s.lastRoll
  lastRoll_pos : 0 < s.lastRoll
  lastRoll_le : s.lastRoll ≤ now
  last : ∃ o, s.opened.getLast? = some o ∧ o.lastRoll = s.lastRoll

/-- A new file is opened at second `now`. -/
structure RollsAt (now : Int) (s s' : LogFile) : Prop where
  lastRoll_lt : s.lastRoll < now
  lastRoll_eq : s'.lastRoll = now
  period_eq : s'.startOfPeriod = period now
  file_eq : ∃ file, s'.file = some file ∧ file.writtenBytes = 0
  last : ∃ o, s'.opened.getLast? = some o ∧ o.lastRoll = now
  rollSize_eq : s'.rollSize = s.rollSize
  checkEveryN_eq : s'.checkEveryN = s.checkEveryN
  count_eq : s'.count = s.count

/-- The open file stays, with `writtenBytes` in it. -/
structure Stays (writtenBytes : Nat) (s s' : LogFile) : Prop where
  lastRoll_eq : s'.lastRoll = s.lastRoll
  period_eq : s'.startOfPeriod = s.startOfPeriod
  file_eq : ∃ file, s'.file = some file ∧ file.writtenBytes = writtenBytes
  opened_eq : s'.opened = s.opened
  rollSize_eq : s'.rollSize = s.rollSize
  checkEveryN_eq : s'.checkEveryN = s.checkEveryN

theorem rollFile_at {a : Answers} (h : (s.rollFile a).map (·.1) = some s') :
    RollsAt a.time s s' ∨ a.time ≤ s.lastRoll ∧ s' = s := by
  obtain ⟨⟨s₁, b⟩, hr, hs⟩ := Option.map_eq_some_iff.1 h
  obtain rfl : s₁ = s' := hs
  simp only [rollFile] at hr
  split at hr
  · rename_i hlt
    obtain ⟨file, hf, hr⟩ := Option.map_eq_some_iff.1 hr
    simp only [AppendFile.create, Option.ite_none_right_eq_some, Option.some.injEq] at hf
    obtain ⟨-, rfl⟩ := hf
    obtain ⟨rfl, -⟩ := Prod.mk.inj hr
    exact .inl ⟨hlt, rfl, rfl, ⟨_, rfl, rfl⟩, ⟨_, List.getLast?_concat, rfl⟩, rfl, rfl, rfl⟩
  · rename_i hge
    obtain ⟨rfl, -⟩ := Prod.mk.inj (Option.some.inj hr)
    exact .inr ⟨not_lt.1 hge, rfl⟩

/-- An append rolls, or the file stays: it is too long and was opened in this very
second, or `count_` has gone up, or it is through and the day is still the file's. -/
theorem append_cases {call : AppendCall} (hsame : call.roll.time = call.time) (h : s.append call = some s') :
    (∃ count, (count = s.count ∨ count = 0) ∧ RollsAt call.time { s with count := count } s') ∨
    ∃ writtenBytes, Stays writtenBytes s s' ∧
      (call.time ≤ s.lastRoll ∧ (s'.count = s.count ∨ s'.count = 0) ∨
        writtenBytes ≤ s.rollSize ∧ s.count + 1 < s.checkEveryN ∧ s'.count = s.count + 1 ∨
        writtenBytes ≤ s.rollSize ∧ s'.count = 0 ∧ period call.time = s.startOfPeriod) := by
  obtain ⟨file, -, h⟩ := Option.bind_eq_some_iff.1 h
  obtain ⟨⟨file', disk⟩, -, h⟩ := Option.bind_eq_some_iff.1 h
  simp only [check] at h
  split at h
  · -- The file is too long.
    rcases rollFile_at h with hroll | ⟨hle, rfl⟩
    · obtain ⟨hlt, hlast, hperiod, hfile', hopened, hsize, hevery, hcount⟩ := hsame ▸ hroll
      exact .inl ⟨s.count, .inl rfl, hlt, hlast, hperiod, hfile', hopened, hsize, hevery, hcount⟩
    · exact .inr ⟨_, ⟨rfl, rfl, ⟨file', rfl, rfl⟩, rfl, rfl, rfl⟩, .inl ⟨hsame ▸ hle, .inl rfl⟩⟩
  · rename_i hsize
    split at h
    · split at h
      · -- Its day is over.
        rcases rollFile_at h with hroll | ⟨hle, rfl⟩
        · obtain ⟨hlt, hlast, hperiod, hfile', hopened, hsize, hevery, hcount⟩ := hsame ▸ hroll
          exact .inl ⟨0, .inr rfl, hlt, hlast, hperiod, hfile', hopened, hsize, hevery, hcount⟩
        · exact .inr ⟨_, ⟨rfl, rfl, ⟨file', rfl, rfl⟩, rfl, rfl, rfl⟩, .inl ⟨hsame ▸ hle, .inr rfl⟩⟩
      · rename_i hperiod
        have hday : period call.time = s.startOfPeriod := not_not.1 hperiod
        split at h
        · obtain rfl := Option.some.inj h
          exact .inr ⟨_, ⟨rfl, rfl, ⟨file', rfl, rfl⟩, rfl, rfl, rfl⟩, .inr (.inr ⟨not_lt.1 hsize, rfl, hday⟩)⟩
        · obtain rfl := Option.some.inj h
          exact .inr ⟨_, ⟨rfl, rfl, ⟨file', rfl, rfl⟩, rfl, rfl, rfl⟩, .inr (.inr ⟨not_lt.1 hsize, rfl, hday⟩)⟩
    · rename_i hcount
      obtain rfl := Option.some.inj h
      exact .inr ⟨_, ⟨rfl, rfl, ⟨file', rfl, rfl⟩, rfl, rfl, rfl⟩, .inr (.inl ⟨not_lt.1 hsize, not_le.1 hcount, rfl⟩)⟩

/-! ## The size -/

/-- After an append the file is not too long, or it was opened in this very second. -/
def SizedOrNew (_ : LogFile) (a : LogFileLabel) (s' : LogFile) : Prop :=
  ∀ call, a = .append call → ∃ file, s'.file = some file ∧
    (file.writtenBytes ≤ s'.rollSize ∨ ∃ o, s'.opened.getLast? = some o ∧ o.lastRoll = call.time)

theorem append_sized {call : AppendCall} (hd : Dated rollSize checkEveryN now s) (hnow : now ≤ call.time)
    (hsame : call.roll.time = call.time) (h : s.append call = some s') : SizedOrNew s (.append call) s' := by
  rintro _ ⟨⟩
  rcases append_cases hsame h with ⟨count, -, hroll⟩ | ⟨writtenBytes, hstay, hcases⟩
  · obtain ⟨file, hf, hw⟩ := hroll.file_eq
    exact ⟨file, hf, .inl (by omega)⟩
  · obtain ⟨file, hf, rfl⟩ := hstay.file_eq
    refine ⟨file, hf, ?_⟩
    rcases hcases with ⟨hle, -⟩ | ⟨hsize, -⟩ | ⟨hsize, -⟩
    · -- The clock is where it was when the file was opened.
      obtain ⟨o, ho, hlast⟩ := hd.last
      have := hd.lastRoll_le
      exact .inr ⟨o, hstay.opened_eq ▸ ho, by omega⟩
    · exact .inl (hstay.rollSize_eq ▸ hsize)
    · exact .inl (hstay.rollSize_eq ▸ hsize)

/-! ## The days -/

theorem RollsAt.dated (count : Int) (hroll : RollsAt now { s with count := count } s') {before : Int}
    (hd : Dated rollSize checkEveryN before s) (hcount : count = s.count ∨ count = 0) :
    Dated rollSize checkEveryN now s' := by
  obtain ⟨hlt, hlast, hperiod, -, hopened, hsize, hevery, hcount'⟩ := hroll
  dsimp only at hlt hsize hevery hcount'
  have hpos := hd.lastRoll_pos
  have hmem := hd.count_mem
  refine ⟨hsize.trans hd.rollSize_eq, hevery.trans hd.checkEveryN_eq, ?_, by rw [hperiod, hlast], by omega, by omega, ?_⟩
  · rcases hcount with rfl | rfl <;> omega
  · rw [hlast]
    exact hopened

theorem append_dated {call : AppendCall} (hd : Dated rollSize checkEveryN now s) (hnow : now ≤ call.time)
    (hsame : call.roll.time = call.time) (h : s.append call = some s') : Dated rollSize checkEveryN call.time s' := by
  rcases append_cases hsame h with ⟨count, hcount, hroll⟩ | ⟨writtenBytes, hstay, hcases⟩
  · exact hroll.dated count hd hcount
  · obtain ⟨hsize, hevery, hmem, hperiod, hpos, hle, hlast⟩ := hd
    refine ⟨hstay.rollSize_eq.trans hsize, hstay.checkEveryN_eq.trans hevery, ?_, ?_, ?_, ?_, ?_⟩
    · rcases hcases with ⟨-, hcount⟩ | ⟨-, hlt, hcount⟩ | ⟨-, hcount, -⟩ <;> omega
    · rw [hstay.period_eq, hstay.lastRoll_eq, hperiod]
    · rw [hstay.lastRoll_eq]
      exact hpos
    · rw [hstay.lastRoll_eq]
      omega
    · rw [hstay.opened_eq, hstay.lastRoll_eq]
      exact hlast

/-- What `rollFile` reads is what its caller has read, if it is an append. -/
def SameTime (a : LogFileLabel) : Prop := ∀ call, a = .append call → call.roll.time = call.time

theorem step_dated {a : LogFileLabel} (hd : Dated rollSize checkEveryN now s) (hnow : ∀ t ∈ a.time, now ≤ t)
    (hsame : SameTime a) (h : s.step a = some s') : Dated rollSize checkEveryN (a.time.getD now) s' := by
  cases a with
  | append call => exact append_dated hd (hnow call.time rfl) (hsame call rfl) h
  | flush =>
    obtain ⟨file, -, rfl⟩ := Option.map_eq_some_iff.1 h
    exact hd
  | rollFile a =>
    rcases rollFile_at h with hroll | ⟨-, rfl⟩
    · exact RollsAt.dated s.count hroll hd (.inl rfl)
    · exact ⟨hd.rollSize_eq, hd.checkEveryN_eq, hd.count_mem, hd.period_eq, hd.lastRoll_pos,
        hd.lastRoll_le.trans (hnow a.time rfl), hd.last⟩

theorem step_sized {a : LogFileLabel} (hd : Dated rollSize checkEveryN now s) (hnow : ∀ t ∈ a.time, now ≤ t)
    (hsame : SameTime a) (h : s.step a = some s') : SizedOrNew s a s' := by
  cases a with
  | append call => exact append_sized hd (hnow call.time rfl) (hsame call rfl) h
  | flush | rollFile a => exact nofun

/-- The append comes at or after second `boundary`, to a file opened before it. -/
def isLate (boundary : Int) (s : LogFile) : LogFileLabel → Bool
  | .append call => decide (boundary ≤ call.time) && s.opened.getLast?.any fun o => decide (o.lastRoll < boundary)
  | .flush | .rollFile _ => false

/-- How many of the calls are late. -/
def late (boundary : Int) (s : LogFile) : List LogFileLabel → Nat
  | [] => 0
  | a :: as => (isLate boundary s a).toNat + match s.step a with
    | some s' => late boundary s' as
    | none => 0

theorem isLate_append {boundary : Int} {call : AppendCall} (hd : Dated rollSize checkEveryN now s) :
    isLate boundary s (.append call) = true ↔ boundary ≤ call.time ∧ s.lastRoll < boundary := by
  obtain ⟨o, ho, hlast⟩ := hd.last
  simp [isLate, ho, hlast]

/-- Seconds on both sides of a day boundary are of different days. -/
theorem period_ne {boundary r t : Int} (hday : boundary % kRollPerSeconds = 0) (hr : 0 < r) (hlt : r < boundary)
    (hle : boundary ≤ t) : period t ≠ period r := by
  simp only [kRollPerSeconds, period, Int.tdiv_eq_ediv_of_nonneg hr.le,
    Int.tdiv_eq_ediv_of_nonneg (hr.le.trans (hlt.le.trans hle))] at hday ⊢
  omega

/-- An append after the boundary to a file from before it rolls, or `count_` goes up. -/
theorem late_append {boundary : Int} {call : AppendCall} (hd : Dated rollSize checkEveryN now s)
    (hday : boundary % kRollPerSeconds = 0) (hsame : call.roll.time = call.time) (hlate : boundary ≤ call.time)
    (hold : s.lastRoll < boundary) (h : s.append call = some s') :
    boundary ≤ s'.lastRoll ∨ s'.count = s.count + 1 := by
  rcases append_cases hsame h with ⟨count, -, hroll⟩ | ⟨writtenBytes, -, hcases⟩
  · exact .inl (hlate.trans hroll.lastRoll_eq.ge)
  · rcases hcases with ⟨hle, -⟩ | ⟨-, -, hcount⟩ | ⟨-, -, hperiod⟩
    · omega
    · exact .inr hcount
    · exact absurd (hperiod.trans hd.period_eq) (period_ne hday hd.lastRoll_pos hold hlate)

theorem lastRoll_mono {a : LogFileLabel} (hd : Dated rollSize checkEveryN now s) (hsame : SameTime a)
    (h : s.step a = some s') : s.lastRoll ≤ s'.lastRoll := by
  cases a with
  | append call =>
    rcases append_cases (hsame call rfl) h with ⟨count, -, hroll⟩ | ⟨writtenBytes, hstay, -⟩
    · have hlt : s.lastRoll < call.time := hroll.lastRoll_lt
      exact hlt.le.trans hroll.lastRoll_eq.ge
    · exact hstay.lastRoll_eq.ge
  | flush =>
    obtain ⟨file, -, rfl⟩ := Option.map_eq_some_iff.1 h
    exact le_rfl
  | rollFile a =>
    rcases rollFile_at h with hroll | ⟨-, rfl⟩
    · exact hroll.lastRoll_lt.le.trans hroll.lastRoll_eq.ge
    · exact le_rfl

/-! ## Runs -/

/-- The clock does not go back during the calls. -/
def Clock (now : Int) (as : List LogFileLabel) : Prop := (now :: as.filterMap LogFileLabel.time).Pairwise (· ≤ ·)

theorem Clock.cons {a : LogFileLabel} {as : List LogFileLabel} (h : Clock now (a :: as)) :
    (∀ t ∈ a.time, now ≤ t) ∧ Clock (a.time.getD now) as := by
  unfold Clock at h ⊢
  cases ht : a.time with
  | none =>
    rw [List.filterMap_cons_none ht] at h
    exact ⟨nofun, h⟩
  | some t =>
    rw [List.filterMap_cons_some ht] at h
    obtain ⟨hnow, hrest⟩ := List.pairwise_cons.1 h
    refine ⟨?_, hrest⟩
    rintro _ ⟨⟩
    exact hnow t (by simp)

theorem run_sized {as : List LogFileLabel} {basename : Bytes} {flushInterval : Int}
    (hd : Dated rollSize checkEveryN now s) (hclock : Clock now as) (hsame : ∀ a ∈ as, SameTime a) :
    (Rolling basename rollSize flushInterval checkEveryN).Steps SizedOrNew s as := by
  induction as generalizing s now with
  | nil => trivial
  | cons a as ih =>
    intro s' h
    obtain ⟨hnow, hrest⟩ := hclock.cons
    have ha := hsame a (by simp)
    exact ⟨step_sized hd hnow ha h, ih (step_dated hd hnow ha h) hrest fun b hb => hsame b (by simp [hb])⟩

/-- A file from after the boundary stays one. -/
theorem late_eq_zero {boundary : Int} {as : List LogFileLabel} (hd : Dated rollSize checkEveryN now s)
    (hclock : Clock now as) (hsame : ∀ a ∈ as, SameTime a) (hnew : boundary ≤ s.lastRoll) : late boundary s as = 0 := by
  induction as generalizing s now with
  | nil => rfl
  | cons a as ih =>
    obtain ⟨hnow, hrest⟩ := hclock.cons
    have ha := hsame a (by simp)
    have hnot : isLate boundary s a = false := by
      cases a with
      | append call =>
        rw [← Bool.not_eq_true, isLate_append hd]
        exact fun h => absurd h.2 (not_lt.2 hnew)
      | flush | rollFile a => rfl
    rw [late, hnot, Bool.toNat_false, Nat.zero_add]
    cases h : s.step a with
    | none => rfl
    | some s' =>
      exact ih (step_dated hd hnow ha h) hrest (fun b hb => hsame b (by simp [hb])) (hnew.trans (lastRoll_mono hd ha h))

/-- Once the boundary is past, `count_` counts the late appends. -/
theorem late_add_count {boundary : Int} {as : List LogFileLabel} (hday : boundary % kRollPerSeconds = 0)
    (hd : Dated rollSize checkEveryN now s) (hclock : Clock now as) (hsame : ∀ a ∈ as, SameTime a)
    (hpast : ∀ a ∈ as, ∀ t ∈ a.time, boundary ≤ t) : (late boundary s as : Int) + s.count ≤ checkEveryN := by
  induction as generalizing s now with
  | nil =>
    have := hd.count_mem
    simp only [late]
    omega
  | cons a as ih =>
    have hmem := hd.count_mem
    obtain ⟨hnow, hrest⟩ := hclock.cons
    have ha := hsame a (by simp)
    have hsame' : ∀ b ∈ as, SameTime b := fun b hb => hsame b (by simp [hb])
    by_cases hnew : boundary ≤ s.lastRoll
    · rw [late_eq_zero hd hclock hsame hnew]
      omega
    · rw [late]
      cases h : s.step a with
      | none =>
        have := Bool.toNat_le (isLate boundary s a)
        dsimp only
        omega
      | some s' =>
        have hd' := step_dated hd hnow ha h
        have ih' := ih hd' hrest hsame' fun b hb => hpast b (by simp [hb])
        dsimp only
        cases a with
        | append call =>
          have hlate : boundary ≤ call.time := hpast (.append call) (by simp) call.time rfl
          rw [(isLate_append hd).2 ⟨hlate, not_le.1 hnew⟩]
          rcases late_append hd hday (ha call rfl) hlate (not_le.1 hnew) h with hlast | hcount
          · rw [late_eq_zero hd' hrest hsame' hlast]
            simp only [Bool.toNat_true]
            omega
          · simp only [Bool.toNat_true]
            omega
        | flush =>
          obtain ⟨file, -, rfl⟩ := Option.map_eq_some_iff.1 h
          simpa [isLate] using ih'
        | rollFile a =>
          have hcount : s'.count = s.count := by
            rcases rollFile_at h with hroll | ⟨-, rfl⟩
            · exact hroll.count_eq
            · rfl
          simpa [isLate, hcount] using ih'

theorem late_le {boundary : Int} {as : List LogFileLabel} (hday : boundary % kRollPerSeconds = 0)
    (hd : Dated rollSize checkEveryN now s) (hclock : Clock now as) (hsame : ∀ a ∈ as, SameTime a) :
    (late boundary s as : Int) ≤ checkEveryN := by
  induction as generalizing s now with
  | nil =>
    have := hd.count_mem
    simp only [late]
    omega
  | cons a as ih =>
    by_cases hpast : ∃ t ∈ a.time, boundary ≤ t
    · -- From here on the boundary is past.
      obtain ⟨t, ht, hle⟩ := hpast
      have hall : ∀ b ∈ a :: as, ∀ u ∈ b.time, boundary ≤ u := by
        have hrest := hclock.cons.2
        rw [show a.time = some t from ht, Option.getD_some] at hrest
        intro b hb u hu
        rcases List.mem_cons.1 hb with rfl | hb
        · obtain rfl : t = u := Option.some.inj (ht.symm.trans hu)
          exact hle
        · exact hle.trans ((List.pairwise_cons.1 hrest).1 u (List.mem_filterMap.2 ⟨b, hb, hu⟩))
      have := late_add_count hday hd hclock hsame hall
      have := hd.count_mem
      omega
    · have hnot : isLate boundary s a = false := by
        cases a with
        | append call =>
          rw [← Bool.not_eq_true, isLate_append hd]
          exact fun h => hpast ⟨call.time, rfl, h.1⟩
        | flush | rollFile a => rfl
      rw [late, hnot, Bool.toNat_false, Nat.zero_add]
      obtain ⟨hnow, hrest⟩ := hclock.cons
      cases h : s.step a with
      | none =>
        have := hd.count_mem
        dsimp only
        omega
      | some s' => exact ih (step_dated hd hnow (hsame a (by simp)) h) hrest fun b hb => hsame b (by simp [hb])

/-! ## Before the first file -/

/-- Where the constructor starts, and where it ends if the clock reads no positive second. -/
structure Unopened (rollSize : Nat) (checkEveryN : Int) (s : LogFile) : Prop where
  rollSize_eq : s.rollSize = rollSize
  checkEveryN_eq : s.checkEveryN = checkEveryN
  count_eq : s.count = 0
  lastRoll_eq : s.lastRoll = 0
  file_eq : s.file = none
  opened_eq : s.opened = []

theorem Unopened.rollFile {a : Answers} (hu : Unopened rollSize checkEveryN s) (hN : 1 ≤ checkEveryN)
    (h : (s.rollFile a).map (·.1) = some s') : Dated rollSize checkEveryN a.time s' ∨ s' = s := by
  rcases rollFile_at h with hroll | ⟨-, hs⟩
  · have hpos : 0 < a.time := by
      have := hroll.lastRoll_lt
      rwa [hu.lastRoll_eq] at this
    have hcount : s'.count = 0 := hroll.count_eq.trans hu.count_eq
    refine .inl ⟨hroll.rollSize_eq.trans hu.rollSize_eq, hroll.checkEveryN_eq.trans hu.checkEveryN_eq, by omega, ?_, ?_,
      hroll.lastRoll_eq.le, ?_⟩
    · rw [hroll.period_eq, hroll.lastRoll_eq]
    · rw [hroll.lastRoll_eq]
      exact hpos
    · rw [hroll.lastRoll_eq]
      exact hroll.last
  · exact .inr hs

/-- Without a file nothing is appended, and `rollFile` opens one or leaves all as it is. -/
theorem Unopened.step {a : LogFileLabel} (now : Int) (hu : Unopened rollSize checkEveryN s) (hN : 1 ≤ checkEveryN)
    (h : s.step a = some s') :
    (∀ call, a ≠ .append call) ∧ (Dated rollSize checkEveryN (a.time.getD now) s' ∨ s' = s) := by
  cases a with
  | append call =>
    obtain ⟨file, hfile, -⟩ := Option.bind_eq_some_iff.1 h
    cases hu.file_eq.symm.trans hfile
  | flush =>
    obtain ⟨file, hfile, -⟩ := Option.map_eq_some_iff.1 h
    cases hu.file_eq.symm.trans hfile
  | rollFile a => exact ⟨nofun, hu.rollFile hN h⟩

theorem Unopened.in_time {as : List LogFileLabel} {basename : Bytes} {flushInterval : Int}
    (hu : Unopened rollSize checkEveryN s) (hN : 1 ≤ checkEveryN) (hclock : Clock now as) (hsame : ∀ a ∈ as, SameTime a) :
    (Rolling basename rollSize flushInterval checkEveryN).Steps SizedOrNew s as ∧
      ∀ boundary, boundary % kRollPerSeconds = 0 → (late boundary s as : Int) ≤ checkEveryN := by
  induction as generalizing s now with
  | nil =>
    refine ⟨trivial, fun boundary _ => ?_⟩
    simp only [late]
    omega
  | cons a as ih =>
    obtain ⟨-, hrest⟩ := hclock.cons
    have hsame' : ∀ b ∈ as, SameTime b := fun b hb => hsame b (by simp [hb])
    have hlate : ∀ boundary, isLate boundary s a = false := by
      intro boundary
      cases a <;> simp [isLate, hu.opened_eq]
    cases h : s.step a with
    | none =>
      refine ⟨fun s' h' => ?_, fun boundary _ => ?_⟩
      · cases h.symm.trans h'
      · simp only [late, hlate, h, Bool.toNat_false]
        omega
    | some s' =>
      obtain ⟨hcall, hnext⟩ := hu.step now hN h
      have hrun : (Rolling basename rollSize flushInterval checkEveryN).Steps SizedOrNew s' as ∧
          ∀ boundary, boundary % kRollPerSeconds = 0 → (late boundary s' as : Int) ≤ checkEveryN := by
        rcases hnext with hd | rfl
        · exact ⟨run_sized hd hrest hsame', fun boundary hday => late_le hday hd hrest hsame'⟩
        · exact ih hu hrest hsame'
      refine ⟨fun t ht => ?_, fun boundary hday => ?_⟩
      · obtain rfl : s' = t := Option.some.inj (h.symm.trans ht)
        exact ⟨fun call heq => absurd heq (hcall call), hrun.1⟩
      · simpa [late, hlate, h] using hrun.2 boundary hday

/-- Rolling happens in time: after each append the file is not longer than
`rollSize_` or was opened in that very second, and no more than `checkEveryN_`
appends after midnight go to a file from before it. -/
theorem rolls_in_time {basename : Bytes} {flushInterval : Int} {disk : Disk} {a : Answers} {as : List LogFileLabel}
    (hN : 1 ≤ checkEveryN) (h0 : create basename rollSize flushInterval checkEveryN disk a = some s)
    (hclock : Clock a.time as) (hsame : ∀ a ∈ as, SameTime a) :
    (Rolling basename rollSize flushInterval checkEveryN).Steps SizedOrNew s as ∧
      ∀ boundary, boundary % kRollPerSeconds = 0 → (late boundary s as : Int) ≤ checkEveryN := by
  have hu : Unopened rollSize checkEveryN
      ⟨basename, rollSize, flushInterval, checkEveryN, 0, 0, 0, 0, none, disk, []⟩ := ⟨rfl, rfl, rfl, rfl, rfl, rfl⟩
  rcases hu.rollFile hN h0 with hd | rfl
  · exact ⟨run_sized hd hclock hsame, fun boundary hday => late_le hday hd hclock hsame⟩
  · exact hu.in_time hN hclock hsame

def threeAppends : List LogFileLabel :=
  [.append ⟨[1], fun _ => 1, 86400, ⟨86400, none, 1, true⟩⟩, .append ⟨[2], fun _ => 1, 86400, ⟨86400, none, 1, true⟩⟩,
    .append ⟨[3], fun _ => 1, 86401, ⟨86401, none, 1, true⟩⟩]

/-- A file opened in the last second of a day takes two appends of the next one, as
many as it may, and the third goes through too. -/
theorem rolls_in_time_midnight : ∃ s t, create [97] 9 3 2 (fun _ => []) ⟨86399, none, 1, true⟩ = some s ∧
    (Rolling [97] 9 3 2).run s threeAppends = some t ∧ t.opened.map (·.lastRoll) = [86399, 86400] ∧
    (Rolling [97] 9 3 2).Steps SizedOrNew s threeAppends ∧ late 86400 s threeAppends = 2 := by
  obtain ⟨s, t, hs, ht, hopened, hlate⟩ : ∃ s t, create [97] 9 3 2 (fun _ => []) ⟨86399, none, 1, true⟩ = some s ∧
      (Rolling [97] 9 3 2).run s threeAppends = some t ∧ t.opened.map (·.lastRoll) = [86399, 86400] ∧
      late 86400 s threeAppends = 2 := ⟨_, _, rfl, rfl, rfl, rfl⟩
  have hclock : Clock 86399 threeAppends := by
    simp [threeAppends, Clock, LogFileLabel.time]
  have hsame : ∀ a ∈ threeAppends, SameTime a := by
    intro a ha call heq
    subst heq
    simp only [threeAppends, List.mem_cons, LogFileLabel.append.injEq, List.not_mem_nil, or_false] at ha
    rcases ha with rfl | rfl | rfl <;> rfl
  exact ⟨s, t, hs, ht, hopened, (rolls_in_time (by decide) hs hclock hsame).1, hlate⟩

end LogFile

end Ycnt

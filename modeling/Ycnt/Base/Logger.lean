import Mathlib.Order.Defs.LinearOrder
import Mathlib.Order.Lattice
import Mathlib.Data.List.Infix
import Ycnt.Lib.Lts
/-!
# Log levels and FATAL

The destructor of `Logger` (`LogStream.cpp`), run by any threads after
`Logger::init` has set `logLevel_`. A step is one whole log statement, or the
`abort` that follows a FATAL one once `asyncOutput_->stop()` has returned: other
threads go on logging in between.
-/

namespace Ycnt

open Function

/-- `Logger::LogLevel`, without the count `NUM_LOG_LEVELS` at its end. -/
inductive LogLevel where
  | TRACE
  | DEBUG
  | INFO
  | WARN
  | ERROR
  | FATAL
  deriving DecidableEq, Repr

/-- The value of the enumerator. -/
def LogLevel.value : LogLevel → Nat
  | .TRACE => 0
  | .DEBUG => 1
  | .INFO => 2
  | .WARN => 3
  | .ERROR => 4
  | .FATAL => 5

theorem LogLevel.value_injective : Injective LogLevel.value := by
  intro a b h
  cases a <;> cases b <;> first | rfl | cases h

instance : LinearOrder LogLevel := LinearOrder.lift' LogLevel.value LogLevel.value_injective

theorem LogLevel.le_FATAL (l : LogLevel) : l ≤ .FATAL := by
  cases l <;> decide

/-- A log statement: its level, and what its stream holds when the trailer is in. -/
structure Statement (β : Type*) where
  level : LogLevel
  record : β

inductive LoggerPc where
  | running
  /-- In `asyncOutput_->stop()`, with `abort()` to come. -/
  | stopping
  deriving DecidableEq, Repr

inductive LoggerLabel (τ β : Type*) where
  | log (t : τ) (st : Statement β)
  | abort (t : τ)

/-- The threads of the process and two histories: the statements executed, and
those whose record went to `asyncOutput_->append`. -/
structure LoggerState (τ β : Type*) where
  thread : τ → LoggerPc
  aborted : Bool
  executed : List (τ × Statement β)
  appended : List (τ × Statement β)

namespace LoggerState

variable {τ β : Type*} [DecidableEq τ] (logLevel : LogLevel) (s : LoggerState τ β)

/-- `~Logger`, up to the call of `abort`. -/
def destroy (t : τ) (st : Statement β) : LoggerState τ β :=
  let s := { s with executed := s.executed ++ [(t, st)] }
  if logLevel ≥ st.level then
    let s := { s with appended := s.appended ++ [(t, st)] }
    if st.level = .FATAL then { s with thread := update s.thread t .stopping } else s
  else s

def step : LoggerLabel τ β → Option (LoggerState τ β)
  | .log t st => if s.aborted = false ∧ s.thread t = .running then some (destroy logLevel s t st) else none
  | .abort t => if s.aborted = false ∧ s.thread t = .stopping then some { s with aborted := true } else none

/-- A FATAL statement; at the level FATAL the thread goes no further. -/
def fatal (t : τ) (record : β) : LoggerState τ β := destroy logLevel s t ⟨.FATAL, record⟩

omit [DecidableEq τ] in
/-- The thread goes on: the process is there, and no FATAL statement has stopped it. -/
def Running (t : τ) : Prop := s.aborted = false ∧ s.thread t = .running

omit [DecidableEq τ] in
instance (t : τ) : Decidable (s.Running t) := inferInstanceAs (Decidable (_ ∧ _))

omit [DecidableEq τ] in
def Fresh : Prop :=
  (∀ t, s.thread t = .running) ∧ s.aborted = false ∧ s.executed = [] ∧ s.appended = []

omit [DecidableEq τ] in
def empty : LoggerState τ β := ⟨fun _ => .running, false, [], []⟩

omit [DecidableEq τ] in
theorem empty_fresh : (empty : LoggerState τ β).Fresh := ⟨fun _ => rfl, rfl, rfl, rfl⟩

/-- The statements of thread `t` in a history. -/
def ofThread (t : τ) (l : List (τ × Statement β)) : List (Statement β) := (l.filter (·.1 = t)).map (·.2)

end LoggerState

/-- The threads of a process that log after `Logger::init` with the level `logLevel`. -/
def Logging (τ β : Type*) [DecidableEq τ] (logLevel : LogLevel) : Lts.System (LoggerState τ β) (LoggerLabel τ β) where
  init s := s.Fresh
  step s a := s.step logLevel a

namespace LoggerState

variable {τ β : Type*} [DecidableEq τ] {logLevel : LogLevel} {s s' : LoggerState τ β}

/-! ## What was executed -/

@[simp] theorem ofThread_concat (t u : τ) (st : Statement β) (l : List (τ × Statement β)) :
    ofThread t (l ++ [(u, st)]) = if u = t then ofThread t l ++ [st] else ofThread t l := by
  by_cases h : u = t <;> simp [ofThread, h]

theorem mem_ofThread {t : τ} {st : Statement β} {l : List (τ × Statement β)} : st ∈ ofThread t l ↔ (t, st) ∈ l := by
  simp [ofThread]

theorem ofThread_filter (p : Statement β → Bool) (t : τ) (l : List (τ × Statement β)) :
    ofThread t (l.filter fun e => p e.2) = (ofThread t l).filter p := by
  simp only [ofThread, List.filter_map, List.filter_filter, Function.comp_def, Bool.and_comm]

@[simp] theorem destroy_executed (t : τ) (st : Statement β) :
    (destroy logLevel s t st).executed = s.executed ++ [(t, st)] := by
  simp only [destroy]
  split
  · split <;> rfl
  · rfl

@[simp] theorem destroy_appended (t : τ) (st : Statement β) :
    (destroy logLevel s t st).appended = s.appended ++ if st.level ≤ logLevel then [(t, st)] else [] := by
  simp only [destroy, ge_iff_le]
  by_cases hl : st.level ≤ logLevel
  · rw [if_pos hl, if_pos hl]
    split <;> rfl
  · rw [if_neg hl, if_neg hl, List.append_nil]

@[simp] theorem destroy_thread (t : τ) (st : Statement β) :
    (destroy logLevel s t st).thread =
      if st.level ≤ logLevel ∧ st.level = .FATAL then update s.thread t .stopping else s.thread := by
  simp only [destroy, ge_iff_le]
  by_cases hl : st.level ≤ logLevel
  · by_cases hf : st.level = .FATAL
    · rw [if_pos hl, if_pos hf, if_pos ⟨hl, hf⟩]
    · rw [if_pos hl, if_neg hf, if_neg fun h => hf h.2]
  · rw [if_neg hl, if_neg fun h => hl h.1]

@[simp] theorem destroy_aborted (t : τ) (st : Statement β) : (destroy logLevel s t st).aborted = s.aborted := by
  simp only [destroy]
  split
  · split <;> rfl
  · rfl

@[simp] theorem fatal_aborted (t : τ) (record : β) : (s.fatal logLevel t record).aborted = s.aborted :=
  destroy_aborted t _

@[simp] theorem fatal_thread (t : τ) (record : β) : (s.fatal logLevel t record).thread =
    if logLevel = .FATAL then update s.thread t .stopping else s.thread := by
  have hl : LogLevel.FATAL ≤ logLevel ↔ logLevel = .FATAL :=
    ⟨fun h => le_antisymm logLevel.le_FATAL h, fun h => h.ge⟩
  simp [fatal, hl]

/-- Only the level FATAL lets a FATAL statement stop its thread. -/
@[simp] theorem fatal_running_iff {t : τ} {record : β} :
    (s.fatal logLevel t record).Running t ↔ s.Running t ∧ logLevel ≠ .FATAL := by
  unfold Running
  by_cases hl : logLevel = .FATAL <;> simp [hl]

theorem step_cases {a : LoggerLabel τ β} (h : s.step logLevel a = some s') :
    (∃ t st, a = .log t st ∧ s.thread t = .running ∧ s' = destroy logLevel s t st) ∨
    (∃ t, a = .abort t ∧ s.thread t = .stopping ∧ s' = { s with aborted := true }) := by
  cases a with
  | log t st =>
    simp only [step, Option.ite_none_right_eq_some, Option.some.injEq] at h
    exact .inl ⟨t, st, rfl, h.1.2, h.2.symm⟩
  | abort t =>
    simp only [step, Option.ite_none_right_eq_some, Option.some.injEq] at h
    exact .inr ⟨t, rfl, h.1.2, h.2.symm⟩

/-- What the code does: the records are those at or below the configured level,
and a thread is stopped by the first FATAL statement that is one of them. -/
structure Executes (logLevel : LogLevel) (s : LoggerState τ β) : Prop where
  appended_eq : s.appended = s.executed.filter fun e => e.2.level ≤ logLevel
  running : ∀ t, s.thread t = .running → ∀ st ∈ ofThread t s.executed, st.level = .FATAL → logLevel ≠ .FATAL
  stopping : ∀ t, s.thread t = .stopping → logLevel = .FATAL ∧
    ∃ pre st, ofThread t s.executed = pre ++ [st] ∧ st.level = .FATAL ∧ ∀ x ∈ pre, x.level ≠ .FATAL

theorem executes_step {a : LoggerLabel τ β} (hi : Executes logLevel s) (h : s.step logLevel a = some s') :
    Executes logLevel s' := by
  rcases step_cases h with ⟨t, st, rfl, ht, rfl⟩ | ⟨t, rfl, -, rfl⟩
  · refine ⟨?_, fun u hu x hx hf => ?_, fun u hu => ?_⟩
    · by_cases hl : st.level ≤ logLevel <;> simp [hi.appended_eq, List.filter_append, hl]
    · -- A thread still running has emitted no FATAL statement.
      have hu' : s.thread u = .running := by
        by_contra hne
        rw [destroy_thread] at hu
        split at hu
        · by_cases hut : u = t <;> simp_all
        · exact hne hu
      simp only [destroy_executed, ofThread_concat] at hx
      split at hx
      · rename_i htu
        subst htu
        rcases List.mem_append.1 hx with hx | hx
        · exact hi.running t hu' x hx hf
        · obtain rfl := List.mem_singleton.1 hx
          rintro rfl
          simp [hf] at hu
      · exact hi.running u hu' x hx hf
    · by_cases hut : u = t
      · subst hut
        simp only [destroy_thread] at hu
        split at hu
        · rename_i hl
          have hF : logLevel = .FATAL := le_antisymm logLevel.le_FATAL (hl.2 ▸ hl.1)
          exact ⟨hF, ofThread u s.executed, st, by simp, hl.2, fun x hx h => hi.running u ht x hx h hF⟩
        · simp [ht] at hu
      · have hu' : s.thread u = .stopping := by
          rw [destroy_thread] at hu
          split at hu
          · rwa [update_of_ne hut] at hu
          · exact hu
        simpa [Ne.symm hut] using hi.stopping u hu'
  · exact ⟨hi.appended_eq, hi.running, hi.stopping⟩

theorem Fresh.executes (h : s.Fresh) : Executes logLevel s := by
  obtain ⟨ht, -, he, ha⟩ := h
  exact ⟨by simp [he, ha], fun t _ st hst => by simp [he, ofThread] at hst, fun t hst => by simp [ht t] at hst⟩

theorem executes (h : (Logging τ β logLevel).Reachable s) : Executes logLevel s :=
  h.inv (I := Executes logLevel) (fun _ h0 => Fresh.executes h0) fun _ _ _ hi hs => executes_step hi hs

theorem Executes.ofThread_appended (hi : Executes logLevel s) (t : τ) :
    ofThread t s.appended = (ofThread t s.executed).filter fun st => st.level ≤ logLevel := by
  rw [hi.appended_eq, ← ofThread_filter]

/-- Nothing follows the FATAL statement that stopped a thread. -/
theorem Executes.fatal_last (hi : Executes logLevel s) (hl : logLevel = .FATAL) {t : τ} {pre post : List (Statement β)}
    {st : Statement β} (h : ofThread t s.executed = pre ++ st :: post) (hf : st.level = .FATAL) : post = [] := by
  cases ht : s.thread t with
  | running => exact absurd hl (hi.running t ht st (by simp [h]) hf)
  | stopping =>
    obtain ⟨-, pre', st', h', -, hpre⟩ := hi.stopping t ht
    rcases List.eq_nil_or_concat post with rfl | ⟨post, x, rfl⟩
    · rfl
    · have heq : (pre ++ st :: post) ++ [x] = pre' ++ [st'] := by simp [← h', h]
      obtain ⟨rfl, -⟩ := List.append_inj' heq rfl
      exact absurd hf (hpre st (by simp))

/-! ## What a level promises -/

/-- Each thread's records are those of its statements at the configured level or
a more severe one, and a FATAL statement is its last. -/
def Filters (logLevel : LogLevel) (s : LoggerState τ β) : Prop :=
  ∀ t, ofThread t s.appended = (ofThread t s.executed).filter (fun st => logLevel ≤ st.level) ∧
    ∀ pre st post, ofThread t s.executed = pre ++ st :: post → st.level = .FATAL → post = []

/-- The thread has run `prog` to its end, or to the statement that stopped it. -/
def Ran (prog : List (Statement β)) (t : τ) (s : LoggerState τ β) : Prop :=
  ofThread t s.executed <+: prog ∧ (s.thread t = .running → ofThread t s.executed = prog)

/-- The comparison in `~Logger` is the wrong way round, so both readings of the
level agree only on the statements of that very level. -/
theorem Executes.filters_iff (hi : Executes logLevel s) :
    Filters logLevel s ↔ ∀ e ∈ s.executed, e.2.level = logLevel := by
  constructor
  · rintro h ⟨t, st⟩ he
    have hmem := mem_ofThread.2 he
    have heq := hi.ofThread_appended t ▸ (h t).1
    rcases le_total st.level logLevel with hle | hle
    · have : st ∈ (ofThread t s.executed).filter (fun st => logLevel ≤ st.level) := by
        rw [← heq]
        simp [hmem, hle]
      exact le_antisymm hle (by simpa [hmem] using this)
    · have : st ∈ (ofThread t s.executed).filter (fun st => st.level ≤ logLevel) := by
        rw [heq]
        simp [hmem, hle]
      exact le_antisymm (by simpa [hmem] using this) hle
  · intro h t
    have hall : ∀ st ∈ ofThread t s.executed, st.level = logLevel := fun st hst => h _ (mem_ofThread.1 hst)
    refine ⟨?_, fun pre st post heq hf => ?_⟩
    · rw [hi.ofThread_appended t]
      exact List.filter_congr fun st hst => by simp [hall st hst]
    · exact hi.fatal_last ((hall st (by simp [heq])).symm.trans hf) heq hf

/-- Two runs of one program, under levels between which none of its statements
lies, stop at the same statement. -/
theorem executed_eq {T₁ T₂ : LogLevel} {s₁ s₂ : LoggerState τ β} {prog : List (Statement β)} {t : τ}
    (h₁ : Executes T₁ s₁) (h₂ : Executes T₂ s₂) (hr₁ : Ran prog t s₁) (hr₂ : Ran prog t s₂)
    (hl : T₁ = .FATAL → ∀ st ∈ prog, st.level = .FATAL → T₂ = .FATAL)
    (hp : ofThread t s₁.executed <+: ofThread t s₂.executed) :
    ofThread t s₁.executed = ofThread t s₂.executed := by
  cases ht : s₁.thread t with
  | running => exact hp.eq_of_length_le (hr₁.2 ht ▸ hr₂.1.length_le)
  | stopping =>
    obtain ⟨hT, pre, st, heq, hf, -⟩ := h₁.stopping t ht
    obtain ⟨post, hpost⟩ := hp
    rw [heq, List.append_assoc, List.singleton_append] at hpost
    have := h₂.fatal_last (hl hT st (hr₁.1.subset (by simp [heq])) hf) hpost.symm hf
    rw [heq, ← hpost, this]

theorem appended_sublist_iff {T₁ T₂ : LogLevel} {s₁ s₂ : LoggerState τ β} {prog : List (Statement β)} {t : τ}
    (h₁ : Executes T₁ s₁) (h₂ : Executes T₂ s₂) (hr₁ : Ran prog t s₁) (hr₂ : Ran prog t s₂) (hT : T₁ ≤ T₂) :
    List.Sublist (ofThread t s₂.appended) (ofThread t s₁.appended) ↔
      ∀ st ∈ prog, ¬ (T₁ < st.level ∧ st.level ≤ T₂) := by
  rw [h₁.ofThread_appended, h₂.ofThread_appended]
  constructor
  · rintro h st hst ⟨hlt, hle⟩
    have hsub : ∀ x ∈ ofThread t s₂.executed, x.level ≤ T₂ → x.level ≤ T₁ := fun x hx hxl => by
      have : x ∈ (ofThread t s₁.executed).filter fun st => st.level ≤ T₁ := h.subset (by simp [hx, hxl])
      simpa using (List.mem_filter.1 this).2
    cases ht : s₂.thread t with
    | running => exact absurd (hsub st (hr₂.2 ht ▸ hst) hle) hlt.not_ge
    | stopping =>
      -- The statement that stopped the second run is FATAL and a record of the first.
      obtain ⟨hT₂, pre, x, heq, hf, -⟩ := h₂.stopping t ht
      have hx := hsub x (by simp [heq]) (by rw [hf, hT₂])
      exact absurd (hlt.trans_le st.level.le_FATAL) (hf ▸ hx).not_gt
  · intro h
    have heq : ofThread t s₁.executed = ofThread t s₂.executed := by
      rcases List.prefix_or_prefix_of_prefix hr₁.1 hr₂.1 with hp | hp
      · exact executed_eq h₁ h₂ hr₁ hr₂ (fun hF _ _ _ => le_antisymm T₂.le_FATAL (hF ▸ hT)) hp
      · refine (executed_eq h₂ h₁ hr₂ hr₁ (fun hF st hst hf => ?_) hp).symm
        have hn := h st hst
        rw [hf, hF] at hn
        exact le_antisymm T₁.le_FATAL (not_lt.1 fun hlt => hn ⟨hlt, le_rfl⟩)
    rw [heq]
    have hfil : (ofThread t s₂.executed).filter (fun st => st.level ≤ T₂) =
        (ofThread t s₂.executed).filter fun st => st.level ≤ T₁ := List.filter_congr fun st hst => by
      have hn := h st (hr₂.1.subset hst)
      by_cases hle : st.level ≤ T₂
      · simpa [hle] using not_lt.1 fun hlt => hn ⟨hlt, hle⟩
      · simpa [hle] using hT.trans_lt (not_le.1 hle)
    rw [hfil]

/-- The statement of a step, if it is one, has the configured level. -/
def LogsAt (logLevel : LogLevel) : LoggerLabel τ β → Prop
  | .log _ st => st.level = logLevel
  | .abort _ => True

theorem executed_step {a : LoggerLabel τ β} (h : s.step logLevel a = some s') :
    (∀ e ∈ s'.executed, e.2.level = logLevel) ↔ (∀ e ∈ s.executed, e.2.level = logLevel) ∧ LogsAt logLevel a := by
  rcases step_cases h with ⟨t, st, rfl, -, rfl⟩ | ⟨t, rfl, -, rfl⟩
  · simp [LogsAt, or_imp, forall_and]
  · simp [LogsAt]

end LoggerState

namespace Logger

open LoggerState

variable {τ β : Type*} [DecidableEq τ]

/-- A run filters its statements by the level, and ends its threads at FATAL,
exactly when it executes only statements of the configured level. Under two
levels, the records of a thread under the higher one are a subsequence of those
under the lower one exactly when it has no statement above the one and up to the
other. -/
theorem levels_filter_iff :
    (∀ (logLevel : LogLevel) (s t : LoggerState τ β) (as : List (LoggerLabel τ β)), s.Fresh →
      (Logging τ β logLevel).run s as = some t →
      ((Logging τ β logLevel).Always (Filters logLevel) s as ↔
        (Logging τ β logLevel).Guarded (fun _ a => LogsAt logLevel a) s as)) ∧
    ∀ (T₁ T₂ : LogLevel) (s₁ s₂ : LoggerState τ β) (prog : List (Statement β)) (t : τ), T₁ ≤ T₂ →
      (Logging τ β T₁).Reachable s₁ → (Logging τ β T₂).Reachable s₂ → Ran prog t s₁ → Ran prog t s₂ →
      (List.Sublist (ofThread t s₂.appended) (ofThread t s₁.appended) ↔
        ∀ st ∈ prog, ¬ (T₁ < st.level ∧ st.level ≤ T₂)) := by
  refine ⟨fun logLevel s t as h0 hr => ?_, fun T₁ T₂ s₁ s₂ prog t hT h₁ h₂ hr₁ hr₂ => ?_⟩
  · refine Lts.System.always_iff_guarded (J := Executes logLevel) (fun s a s' hj h => executes_step hj h)
      (fun s a s' hj hp h => ?_) hr h0.executes ?_
    · rw [(executes_step hj h).filters_iff, executed_step h]
      exact and_iff_right (hj.filters_iff.1 hp)
    · exact h0.executes.filters_iff.2 (by simp [h0.2.2.1])
  · exact appended_sublist_iff (executes h₁) (executes h₂) hr₁ hr₂ hT

/-- Under ERROR, two threads execute an ERROR statement each. -/
theorem levels_filter_error :
    (Logging Nat Nat .ERROR).Always (Filters .ERROR) .empty [.log 0 ⟨.ERROR, 7⟩, .log 1 ⟨.ERROR, 8⟩] := by
  refine (levels_filter_iff.1 .ERROR .empty _ _ empty_fresh rfl).2 ?_
  exact ⟨rfl, fun _ _ => ⟨rfl, fun _ _ => trivial⟩⟩

/-- Under INFO the records are those of the DEBUG and the INFO statement, the
ERROR and the FATAL one leave none, and the thread goes on after FATAL. Under
DEBUG the INFO record is missing. -/
theorem debug_kept_error_dropped :
    (∃ s, (Logging Nat Nat .INFO).run .empty
        [.log 0 ⟨.DEBUG, 1⟩, .log 0 ⟨.ERROR, 2⟩, .log 0 ⟨.FATAL, 3⟩, .log 0 ⟨.INFO, 4⟩] = some s ∧
      s.appended = [(0, ⟨.DEBUG, 1⟩), (0, ⟨.INFO, 4⟩)] ∧ ¬ Filters .INFO s) ∧
    ∃ s, (Logging Nat Nat .DEBUG).run .empty
        [.log 0 ⟨.DEBUG, 1⟩, .log 0 ⟨.ERROR, 2⟩, .log 0 ⟨.FATAL, 3⟩, .log 0 ⟨.INFO, 4⟩] = some s ∧
      s.appended = [(0, ⟨.DEBUG, 1⟩)] := by
  refine ⟨⟨_, rfl, rfl, fun h => ?_⟩, _, rfl, rfl⟩
  exact absurd ((h 0).2 [⟨.DEBUG, 1⟩, ⟨.ERROR, 2⟩] ⟨.FATAL, 3⟩ [⟨.INFO, 4⟩] rfl rfl) (List.cons_ne_nil _ _)

end Logger

end Ycnt

import Mathlib.Logic.Basic
import Mathlib.Data.List.Basic
/-!
# Labelled transition systems

A `System` has initial states and, for each label, at most one step. All
nondeterminism (which thread runs next, what the kernel answers, when a timer
fires) is in the label, so a schedule is a list of labels and `run` executes it.

`Reachable.inv` proves an invariant once for every schedule. `Always`, `Steps` and
`Guarded` speak of one run: a property of every state it visits, a relation that
every step makes between the states before and after it, a condition on every step
it takes. `always_iff_guarded` turns "one step breaks `P` exactly when it is not a
`G` step" into "a run keeps `P` throughout exactly when all its steps are `G`
steps"; `steps_iff_guarded` does the same for `Steps`.
-/

namespace Lts

/-- A labelled transition system. `step s a` is `none` where `a` is not enabled. -/
structure System (σ α : Type*) where
  init : σ → Prop
  step : σ → α → Option σ

variable {σ α : Type*} (M : System σ α)

namespace System

/-- The state after a schedule, `none` if some step of it is not enabled. -/
def run (s : σ) : List α → Option σ
  | [] => some s
  | a :: as => (M.step s a).bind fun s' => run s' as

/-- The states some schedule reaches from an initial state. -/
inductive Reachable : σ → Prop
  | init {s : σ} : M.init s → Reachable s
  | step {s s' : σ} {a : α} : Reachable s → M.step s a = some s' → Reachable s'

/-- `P` holds in every state the schedule visits from `s`, `s` included. -/
def Always (P : σ → Prop) (s : σ) : List α → Prop
  | [] => P s
  | a :: as => P s ∧ ∀ s', M.step s a = some s' → Always P s' as

/-- `R` holds of every step the schedule takes from `s`. -/
def Steps (R : σ → α → σ → Prop) (s : σ) : List α → Prop
  | [] => True
  | a :: as => ∀ s', M.step s a = some s' → R s a s' ∧ Steps R s' as

/-- `G` holds of every step the schedule takes from `s`: of the state before it
and its label. -/
def Guarded (G : σ → α → Prop) (s : σ) : List α → Prop
  | [] => True
  | a :: as => G s a ∧ ∀ s', M.step s a = some s' → Guarded G s' as

variable {M}

@[simp] theorem run_nil (s : σ) : M.run s [] = some s := rfl

theorem run_cons {s t : σ} {a : α} {as : List α} :
    M.run s (a :: as) = some t ↔ ∃ s', M.step s a = some s' ∧ M.run s' as = some t := by
  simp [run, Option.bind_eq_some_iff]

/-- One enabled step, then the rest of the schedule. -/
theorem run_step {s s' t : σ} {a : α} {as : List α} (h : M.step s a = some s') (hr : M.run s' as = some t) :
    M.run s (a :: as) = some t := run_cons.2 ⟨s', h, hr⟩

theorem Reachable.run {s t : σ} {as : List α} (hs : M.Reachable s) (h : M.run s as = some t) : M.Reachable t := by
  induction as generalizing s with
  | nil => simp only [run_nil, Option.some.injEq] at h; exact h ▸ hs
  | cons a as ih =>
    obtain ⟨s', h1, h2⟩ := run_cons.1 h
    exact ih (hs.step h1) h2

/-! ## Invariants -/

/-- What holds initially and is kept by every step holds in every reachable state. -/
theorem Reachable.inv {I : σ → Prop} (h0 : ∀ s, M.init s → I s)
    (hs : ∀ s a s', I s → M.step s a = some s' → I s') {s : σ} (h : M.Reachable s) : I s := by
  induction h with
  | init h => exact h0 _ h
  | step _ h ih => exact hs _ _ _ ih h

/-- `Reachable.inv` where the step may use an invariant proved before. -/
theorem Reachable.inv_of {J I : σ → Prop} (hJ : ∀ s, M.Reachable s → J s) (h0 : ∀ s, M.init s → I s)
    (hs : ∀ s a s', J s → I s → M.step s a = some s' → I s') {s : σ} (h : M.Reachable s) : I s := by
  induction h with
  | init h => exact h0 _ h
  | step hr h ih => exact hs _ _ _ (hJ _ hr) ih h

/-- What every step under a condition on its label keeps, a run of such labels keeps. -/
theorem run_inv_of {I : σ → Prop} {Q : α → Prop} (hs : ∀ s a s', Q a → I s → M.step s a = some s' → I s')
    {s t : σ} {as : List α} (hq : ∀ a ∈ as, Q a) (h : M.run s as = some t) (hi : I s) : I t := by
  induction as generalizing s with
  | nil => simp only [run_nil, Option.some.injEq] at h; exact h ▸ hi
  | cons a as ih =>
    obtain ⟨s', h1, h2⟩ := run_cons.1 h
    exact ih (fun b hb => hq b (by simp [hb])) h2 (hs _ _ _ (hq a (by simp)) hi h1)

/-- A history to which each step adds what `g` says of its label. -/
theorem run_history {β : Type*} {f : σ → List β} {g : α → Option β}
    (hs : ∀ s a s', M.step s a = some s' → f s' = f s ++ (g a).toList) {s t : σ} {as : List α} (h : M.run s as = some t) :
    f t = f s ++ as.filterMap g := by
  induction as generalizing s with
  | nil =>
    simp only [run_nil, Option.some.injEq] at h
    rw [h, List.filterMap_nil, List.append_nil]
  | cons a as ih =>
    obtain ⟨s', h1, h2⟩ := run_cons.1 h
    rw [ih h2, hs s a s' h1, List.append_assoc, List.filterMap_cons]
    cases g a <;> rfl

/-! ## Properties of one run -/

theorem Always.head {P : σ → Prop} {s : σ} {as : List α} (h : M.Always P s as) : P s := by
  cases as with
  | nil => exact h
  | cons a as => exact h.1

theorem Always.last {P : σ → Prop} {s t : σ} {as : List α} (h : M.Always P s as) (hr : M.run s as = some t) : P t := by
  induction as generalizing s with
  | nil =>
    simp only [run_nil, Option.some.injEq] at hr
    exact hr ▸ h
  | cons a as ih =>
    obtain ⟨s', h1, h2⟩ := run_cons.1 hr
    exact ih (h.2 s' h1) h2

theorem Always.mono {P Q : σ → Prop} (hpq : ∀ s, P s → Q s) {s : σ} {as : List α} (h : M.Always P s as) :
    M.Always Q s as := by
  induction as generalizing s with
  | nil => exact hpq _ h
  | cons a as ih => exact ⟨hpq _ h.1, fun s' hs => ih (h.2 s' hs)⟩

theorem Guarded.of_step {G : σ → α → Prop} {s s' : σ} {a : α} {as : List α} (hs : M.step s a = some s') (hg : G s a)
    (h : M.Guarded G s' as) : M.Guarded G s (a :: as) :=
  ⟨hg, fun _ hs' => Option.some.inj (hs.symm.trans hs') ▸ h⟩

/-- A condition that each label of the schedule meets in every state. -/
theorem Guarded.of_labels {G : σ → α → Prop} {s : σ} {as : List α} (h : ∀ a ∈ as, ∀ s, G s a) : M.Guarded G s as := by
  induction as generalizing s with
  | nil => trivial
  | cons a as ih => exact ⟨h a (by simp) s, fun s' _ => ih fun b hb => h b (by simp [hb])⟩

/-- The condition may be looked at where each part of the schedule ends. -/
theorem guarded_of_take {G : σ → α → Prop} {s : σ} {as : List α}
    (h : ∀ k a, as[k]? = some a → ∀ u, M.run s (as.take k) = some u → G u a) : M.Guarded G s as := by
  induction as generalizing s with
  | nil => trivial
  | cons a as ih =>
    exact ⟨h 0 a rfl s rfl, fun s' hs => ih fun k b hb u hu => h (k + 1) b hb u (run_step hs hu)⟩

/-- An invariant that guarded steps keep holds throughout a guarded run. -/
theorem Guarded.always {I : σ → Prop} {G : σ → α → Prop}
    (hs : ∀ s a s', I s → G s a → M.step s a = some s' → I s') {s : σ} {as : List α} (hi : I s)
    (h : M.Guarded G s as) : M.Always I s as := by
  induction as generalizing s with
  | nil => exact hi
  | cons a as ih => exact ⟨hi, fun s' h1 => ih (hs _ _ _ hi h.1 h1) (h.2 s' h1)⟩

/-- A run keeps `P` throughout exactly when all its steps are `G` steps, if from
every state with `P` (and an invariant `J`) a step leads to `P` exactly when it
is a `G` step. -/
theorem always_iff_guarded {J P : σ → Prop} {G : σ → α → Prop}
    (hJ : ∀ s a s', J s → M.step s a = some s' → J s')
    (hP : ∀ s a s', J s → P s → M.step s a = some s' → (P s' ↔ G s a))
    {s t : σ} {as : List α} (hr : M.run s as = some t) (hj : J s) (hp : P s) :
    M.Always P s as ↔ M.Guarded G s as := by
  induction as generalizing s with
  | nil => simp [Always, Guarded, hp]
  | cons a as ih =>
    obtain ⟨s', h1, h2⟩ := run_cons.1 hr
    have hstep : ∀ s'', M.step s a = some s'' → s'' = s' := fun s'' h => by simpa [h1] using h.symm
    constructor
    · intro h
      have h' := h.2 s' h1
      refine ⟨(hP _ _ _ hj hp h1).1 h'.head, fun s'' hs => ?_⟩
      rw [hstep s'' hs]
      exact (ih h2 (hJ _ _ _ hj h1) h'.head).1 h'
    · intro h
      have hp' := (hP _ _ _ hj hp h1).2 h.1
      refine ⟨hp, fun s'' hs => ?_⟩
      rw [hstep s'' hs]
      exact (ih h2 (hJ _ _ _ hj h1) hp').2 (h.2 s' h1)

/-- All steps of a run have `R` exactly when they are all `G` steps, if that is so of
each step under an invariant that steps with `R` keep. -/
theorem steps_iff_guarded {J : σ → Prop} {R : σ → α → σ → Prop} {G : σ → α → Prop}
    (hJ : ∀ s a s', J s → M.step s a = some s' → R s a s' → J s')
    (hR : ∀ s a s', J s → M.step s a = some s' → (R s a s' ↔ G s a))
    {s t : σ} {as : List α} (hr : M.run s as = some t) (hj : J s) : M.Steps R s as ↔ M.Guarded G s as := by
  induction as generalizing s with
  | nil => simp [Steps, Guarded]
  | cons a as ih =>
    obtain ⟨s', h1, h2⟩ := run_cons.1 hr
    constructor
    · intro h
      obtain ⟨hR', hsteps⟩ := h s' h1
      exact .of_step h1 ((hR _ _ _ hj h1).1 hR') ((ih h2 (hJ _ _ _ hj h1 hR')).1 hsteps)
    · intro h s'' hs
      obtain rfl : s' = s'' := Option.some.inj (h1.symm.trans hs)
      have hR' := (hR _ _ _ hj h1).2 h.1
      exact ⟨hR', (ih h2 (hJ _ _ _ hj h1 hR')).2 (h.2 s' h1)⟩

/-- What a run ends with held before it, if no step brings it back. -/
theorem run_back {J Q : σ → Prop} (hJ : ∀ s a s', J s → M.step s a = some s' → J s')
    (hQ : ∀ s a s', J s → M.step s a = some s' → Q s' → Q s) {s t : σ} {as : List α} (hr : M.run s as = some t)
    (hj : J s) (hq : Q t) : Q s := by
  induction as generalizing s with
  | nil => simp only [run_nil, Option.some.injEq] at hr; exact hr ▸ hq
  | cons a as ih =>
    obtain ⟨s', h1, h2⟩ := run_cons.1 hr
    exact hQ _ _ _ hj h1 (ih h2 (hJ _ _ _ hj h1))

/-- A run keeps `P` throughout exactly when `Q` holds at its end, if no step brings
`Q` back and, while both hold, a step keeps `P` exactly when it keeps `Q`. -/
theorem always_iff_last {J P Q : σ → Prop} (hJ : ∀ s a s', J s → M.step s a = some s' → J s')
    (hQ : ∀ s a s', J s → M.step s a = some s' → Q s' → Q s)
    (hPQ : ∀ s a s', J s → P s → M.step s a = some s' → Q s → (P s' ↔ Q s'))
    {s t : σ} {as : List α} (hr : M.run s as = some t) (hj : J s) (hp : P s) (hq : Q s) :
    M.Always P s as ↔ Q t := by
  induction as generalizing s with
  | nil => simp only [run_nil, Option.some.injEq] at hr; exact iff_of_true hp (hr ▸ hq)
  | cons a as ih =>
    obtain ⟨s', h1, h2⟩ := run_cons.1 hr
    have hj' := hJ _ _ _ hj h1
    have hstep := hPQ _ _ _ hj hp h1 hq
    constructor
    · intro h
      have hp' := (h.2 s' h1).head
      exact (ih h2 hj' hp' (hstep.1 hp')).1 (h.2 s' h1)
    · intro ht
      have hq' := run_back hJ hQ h2 hj' ht
      refine ⟨hp, fun s'' hs => ?_⟩
      obtain rfl : s' = s'' := Option.some.inj (h1.symm.trans hs)
      exact (ih h2 hj' (hstep.2 hq') hq').2 ht

/-- A condition on the labels alone. -/
theorem guarded_labels {Q : α → Prop} {s t : σ} {as : List α} (hr : M.run s as = some t) :
    M.Guarded (fun _ a => Q a) s as ↔ ∀ a ∈ as, Q a := by
  induction as generalizing s with
  | nil => simp [Guarded]
  | cons a as ih =>
    obtain ⟨s', h1, h2⟩ := run_cons.1 hr
    rw [List.forall_mem_cons, ← ih h2]
    exact ⟨fun h => ⟨h.1, h.2 s' h1⟩, fun h => .of_step h1 h.1 h.2⟩

/-! ## Runs of two systems -/

theorem run_append {s t : σ} {as bs : List α} :
    M.run s (as ++ bs) = some t ↔ ∃ u, M.run s as = some u ∧ M.run u bs = some t := by
  induction as generalizing s with
  | nil => simp
  | cons a as ih =>
    simp only [List.cons_append, run_cons, ih]
    exact ⟨fun ⟨s', h, u, hu, ht⟩ => ⟨u, ⟨s', h, hu⟩, ht⟩, fun ⟨u, ⟨s', h, hu⟩, ht⟩ => ⟨s', h, u, hu, ht⟩⟩

/-- A run of `M`, seen through `f`, is a run of `N`, if each of its steps is a step of `N`. -/
theorem run_of_step {τ β : Type*} {N : System τ β} {f : σ → τ} {g : α → β}
    (h : ∀ s a s', M.step s a = some s' → N.step (f s) (g a) = some (f s')) {s t : σ} {as : List α}
    (hr : M.run s as = some t) : N.run (f s) (as.map g) = some (f t) := by
  induction as generalizing s with
  | nil =>
    simp only [run_nil, Option.some.injEq] at hr
    rw [hr]
    rfl
  | cons a as ih =>
    obtain ⟨s', h1, h2⟩ := run_cons.1 hr
    exact run_step (h s a s' h1) (ih h2)

/-- Each step of `M`, seen through `f`, is the step of `N` that `g` names, or neither is enabled. -/
theorem run_map {τ β : Type*} {N : System τ β} {f : σ → τ} {g : α → β}
    (h : ∀ s a, (M.step s a).map f = N.step (f s) (g a)) (s : σ) (as : List α) :
    (M.run s as).map f = N.run (f s) (as.map g) := by
  induction as generalizing s with
  | nil => rfl
  | cons a as ih =>
    rw [List.map_cons, run, run, ← h]
    cases M.step s a with
    | none => rfl
    | some s' => exact ih s'

/-- A run of `M`, seen through `f`, is a run of `N`, if each step that `g` names is that
step of `N` and no other step shows. -/
theorem run_filterMap {τ β : Type*} {N : System τ β} {f : σ → τ} {g : α → Option β}
    (h : ∀ s a s' b, M.step s a = some s' → g a = some b → N.step (f s) b = some (f s'))
    (h' : ∀ s a s', M.step s a = some s' → g a = none → f s' = f s) {s t : σ} {as : List α}
    (hr : M.run s as = some t) : N.run (f s) (as.filterMap g) = some (f t) := by
  induction as generalizing s with
  | nil =>
    simp only [run_nil, Option.some.injEq] at hr
    rw [hr]
    rfl
  | cons a as ih =>
    obtain ⟨s', h1, h2⟩ := run_cons.1 hr
    cases hg : g a with
    | none =>
      rw [List.filterMap_cons_none hg, ← h' s a s' h1 hg]
      exact ih h2
    | some b =>
      rw [List.filterMap_cons_some hg]
      exact run_step (h s a s' b h1 hg) (ih h2)

end System

end Lts

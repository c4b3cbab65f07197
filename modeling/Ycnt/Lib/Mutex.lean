import Mathlib.Logic.Function.Basic
import Mathlib.Order.WellFounded
import Mathlib.Data.Set.Basic
/-!
# Mutexes

Threads take and release mutexes; `held t` are those that the program counter of
`t` says it holds, the last one taken first. `Owned` ties the two together, and
with it a mutex that two threads hold is held by one.

`wants t` is the mutex that `t` takes next, if its next step takes one. Where
mutexes are taken in the order of a rank there is no deadlock.
-/

namespace Mutex

open Function

variable {ι τ : Type*} [DecidableEq ι] [DecidableEq τ] {mutex : ι → Option τ} {held : τ → List ι} {t u : τ} {l : ι}

/-- Each mutex is owned by the thread that holds it, if there is one. -/
def Owned (mutex : ι → Option τ) (held : τ → List ι) : Prop := ∀ l t, mutex l = some t ↔ l ∈ held t

omit [DecidableEq ι] [DecidableEq τ] in
theorem Owned.unique (h : Owned mutex held) (ht : l ∈ held t) (hu : l ∈ held u) : t = u :=
  Option.some.inj (((h l t).2 ht).symm.trans ((h l u).2 hu))

/-- `t` takes the free mutex `l`. -/
theorem Owned.acquire (h : Owned mutex held) (hl : mutex l = none) :
    Owned (update mutex l (some t)) (update held t (l :: held t)) := by
  intro l' u
  by_cases hl' : l' = l
  · subst hl'
    have hn : l' ∉ held u := fun hu => by simp [(h l' u).2 hu] at hl
    by_cases hu : u = t
    · subst hu; simp
    · simp [hu, hn, Ne.symm hu]
  · by_cases hu : u = t
    · subst hu; simp [hl', h l' u]
    · simp [hl', hu, h l' u]

/-- `t` releases `l`, the mutex it has taken last. -/
theorem Owned.release {rest : List ι} (h : Owned mutex held) (ht : held t = l :: rest) (hl : l ∉ rest) :
    Owned (update mutex l none) (update held t rest) := by
  intro l' u
  by_cases hl' : l' = l
  · subst hl'
    by_cases hu : u = t
    · subst hu; simp [hl]
    · have hn : l' ∉ held u := fun hu' => hu (h.unique hu' (by simp [ht]))
      simp [hu, hn]
  · by_cases hu : u = t
    · subst hu; simp [hl', h l' u, ht]
    · simp [hl', hu, h l' u]

omit [DecidableEq ι] in
/-- A step of `t` between its locks and unlocks. -/
theorem Owned.move {locks : List ι} (h : Owned mutex held) (ht : locks = held t) : Owned mutex (update held t locks) := by
  rw [ht, update_eq_self]
  exact h

/-! ## Deadlock -/

/-- Threads each of which waits for a mutex that one of them owns. -/
def Deadlock (mutex : ι → Option τ) (wants : τ → Option ι) (S : Set τ) : Prop :=
  S.Nonempty ∧ ∀ t ∈ S, ∃ l, wants t = some l ∧ ∃ u ∈ S, mutex l = some u

/-- What a thread wants has a greater rank than all it holds. -/
def Ordered {κ : Type*} [LT κ] (rank : ι → κ) (held : τ → List ι) (wants : τ → Option ι) : Prop :=
  ∀ t l, wants t = some l → ∀ l' ∈ held t, rank l' < rank l

omit [DecidableEq ι] [DecidableEq τ] in
/-- Ranks would rise for ever along the threads of a deadlock. -/
theorem Owned.not_deadlock {κ : Type*} [LT κ] [WellFoundedGT κ] {rank : ι → κ} {wants : τ → Option ι}
    (h : Owned mutex held) (ho : Ordered rank held wants) (S : Set τ) : ¬ Deadlock mutex wants S := by
  rintro ⟨⟨t₀, ht₀⟩, hwait⟩
  have hnone : ∀ k, ∀ t ∈ S, ∀ l, wants t = some l → rank l = k → False := by
    intro k
    induction k using WellFoundedGT.induction with
    | ind k ih =>
      rintro t ht l hl rfl
      obtain ⟨l₁, hl₁, u, hu, hown⟩ := hwait t ht
      obtain rfl : l = l₁ := Option.some.inj (hl.symm.trans hl₁)
      obtain ⟨l₂, hl₂, -⟩ := hwait u hu
      exact ih _ (ho u l₂ hl₂ l ((h l u).1 hown)) u hu l₂ hl₂ rfl
  obtain ⟨l, hl, -⟩ := hwait t₀ ht₀
  exact hnone _ t₀ ht₀ l hl rfl

omit [DecidableEq ι] [DecidableEq τ] in
/-- If every thread that holds a mutex waits for one that is taken, no thread waits. -/
theorem Owned.free_of_waiting {κ : Type*} [LT κ] [WellFoundedGT κ] {rank : ι → κ} {wants : τ → Option ι}
    (h : Owned mutex held) (ho : Ordered rank held wants)
    (hw : ∀ t, held t ≠ [] → ∃ l, wants t = some l ∧ mutex l ≠ none) (hl : wants t = some l) : mutex l = none := by
  by_contra hn
  refine h.not_deadlock ho {u | ∃ l, wants u = some l ∧ mutex l ≠ none} ⟨⟨t, l, hl, hn⟩, ?_⟩
  rintro u ⟨l', hl', hn'⟩
  obtain ⟨v, hv⟩ := Option.ne_none_iff_exists'.1 hn'
  exact ⟨l', hl', v, hw v (List.ne_nil_of_mem ((h l' v).1 hv)), hv⟩

end Mutex

import Mathlib.Algebra.BigOperators.Finprod
import Ycnt.Lib.Lts
/-!
# Runs that come to an end

Threads that wait for each other may go on for ever although none of them is in
a deadlock. A `Variant` rules this out: a measure of what is left to do, which
each step lowers, except that steps of some kind (a new request, say) add a
bounded amount. `Variant.run_length` bounds every run by the measure of its
first state and the number of these steps, so a run without them ends.

`Work.finsum_update` keeps the account where the work of any number of threads adds
up, only finitely many of which have any.
-/

namespace Lts.System

variable {σ α : Type*}

/-- Steps whose labels have `Q` keep `I`, and all but the `paid` ones lower the
measure; a `paid` one raises it by less than `c`. -/
structure Variant (M : System σ α) (Q : α → Prop) (I : σ → Prop) (c : Nat) (paid : α → Bool) (measure : σ → Nat) :
    Prop where
  keep : ∀ s a s', Q a → I s → M.step s a = some s' → I s'
  lower : ∀ s a s', Q a → I s → M.step s a = some s' → measure s' < measure s + if paid a then c else 0

variable {M : System σ α} {Q : α → Prop} {I : σ → Prop} {c : Nat} {paid : α → Bool} {measure : σ → Nat}

/-- The measure pays for every step of a run. -/
theorem Variant.run_length (h : M.Variant Q I c paid measure) {s t : σ} {as : List α} (hq : ∀ a ∈ as, Q a) (hi : I s)
    (hr : M.run s as = some t) : as.length + measure t ≤ measure s + c * as.countP paid := by
  induction as generalizing s with
  | nil =>
    simp only [run_nil, Option.some.injEq] at hr
    simp [hr]
  | cons a as ih =>
    obtain ⟨s', h1, h2⟩ := run_cons.1 hr
    have hlower := h.lower _ _ _ (hq a (by simp)) hi h1
    have hrest := ih (fun b hb => hq b (by simp [hb])) (h.keep _ _ _ (hq a (by simp)) hi h1) h2
    rw [List.length_cons, List.countP_cons, Nat.mul_add]
    split at hlower
    · rw [if_pos ‹_›]
      omega
    · rw [if_neg ‹_›]
      omega

end Lts.System

/-! ## Work in many places -/

namespace Work

open Function

variable {ι : Type*} [DecidableEq ι] {f : ι → Nat}

theorem hasFiniteSupport_update (hf : f.HasFiniteSupport) (i : ι) (x : Nat) : (update f i x).HasFiniteSupport := by
  refine (Set.Finite.insert i hf).subset fun j hj => ?_
  by_cases hji : j = i
  · exact .inl hji
  · exact .inr (by simpa [hji] using hj)

/-- One summand is exchanged for another. -/
theorem finsum_update (hf : f.HasFiniteSupport) (i : ι) (x : Nat) : finsum (update f i x) + f i = finsum f + x := by
  have hrest : (∑ᶠ (j) (_ : j ≠ i), update f i x j) = ∑ᶠ (j) (_ : j ≠ i), f j :=
    finsum_congr fun j => finsum_congr_Prop rfl fun hj => update_of_ne hj x f
  rw [← add_finsum_cond_ne i (hasFiniteSupport_update hf i x), ← add_finsum_cond_ne i hf, hrest, update_self]
  omega

end Work

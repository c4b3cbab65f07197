import Mathlib.Data.List.Chain
import Mathlib.Data.List.Count
import Mathlib.Data.List.Nodup
import Mathlib.Data.List.Range
import Mathlib.Data.Nat.ModEq
/-!
# Rotations

A list of residues modulo `n` in which every element is the successor of the one
before it. A block of `k * n` of them holds every residue exactly `k` times.
-/

namespace Rotation

/-- Each element is the successor modulo `n` of the one before it. -/
def Rotates (n : Nat) (l : List Nat) : Prop := l.IsChain fun i j => j = (i + 1) % n

variable {n : Nat}

theorem Rotates.block {l block : List Nat} (h : Rotates n l) (hb : block <:+: l) : Rotates n block := by
  obtain ⟨front, back, rfl⟩ := hb
  exact (List.IsChain.left_of_append h).right_of_append

theorem rotates_append_singleton {l : List Nat} {j : Nat} :
    Rotates n (l ++ [j]) ↔ Rotates n l ∧ ∀ i ∈ l.getLast?, j = (i + 1) % n := by
  simp [Rotates, List.isChain_append]

/-- A rotation is determined by its first element. -/
theorem Rotates.getElem {a : Nat} {l : List Nat} (ha : a < n) (h : Rotates n (a :: l)) {i : Nat}
    (hi : i < (a :: l).length) : (a :: l)[i] = (a + i) % n := by
  induction i with
  | zero => simp [Nat.mod_eq_of_lt ha]
  | succ i ih =>
    have hstep := (List.isChain_iff_getElem.1 h) i hi
    rw [hstep, ih (by omega), Nat.mod_add_mod, Nat.add_assoc]

/-- One full turn holds every residue once. -/
theorem count_turn {a w : Nat} (hw : w < n) {l : List Nat} (ha : a < n) (h : Rotates n (a :: l))
    (hl : (a :: l).length = n) : (a :: l).count w = 1 := by
  refine List.count_eq_one_of_mem ?_ ?_
  · rw [List.nodup_iff_injective_getElem]
    rintro ⟨i, hi⟩ ⟨j, hj⟩ he
    simp only [h.getElem ha] at he
    have hij : i % n = j % n := Nat.ModEq.add_left_cancel' a he
    rw [Nat.mod_eq_of_lt (hl ▸ hi), Nat.mod_eq_of_lt (hl ▸ hj)] at hij
    simpa using hij
  · -- `w` stands where the turn has made `w - a` steps modulo `n`.
    have hi : (w + (n - a)) % n < (a :: l).length := hl ▸ Nat.mod_lt _ (by omega)
    have hget : (a :: l)[(w + (n - a)) % n] = w := by
      rw [h.getElem ha hi, Nat.add_mod_mod, show a + (w + (n - a)) = w + n by omega, Nat.add_mod_right,
        Nat.mod_eq_of_lt hw]
    exact hget ▸ List.getElem_mem hi

theorem count_turns {l : List Nat} (hlt : ∀ i ∈ l, i < n) (h : Rotates n l) {k : Nat} (hl : l.length = k * n)
    {w : Nat} (hw : w < n) : l.count w = k := by
  induction k generalizing l with
  | zero => simp_all
  | succ k ih =>
    have hlen : l.length = n + k * n := by rw [hl, Nat.succ_mul, Nat.add_comm]
    have hsplit : l.take n ++ l.drop n = l := List.take_append_drop n l
    have hturn : (l.take n).count w = 1 := by
      obtain ⟨a, t, ht⟩ : ∃ a t, l.take n = a :: t :=
        List.exists_cons_of_ne_nil fun he => by
          have := congrArg List.length he
          simp only [List.length_take, List.length_nil] at this
          omega
      have hrot : Rotates n (a :: t) := ht ▸ h.block (List.take_prefix n l).isInfix
      have ha : a < n := hlt a (List.mem_of_mem_take (ht ▸ List.mem_cons_self))
      exact ht ▸ count_turn hw ha hrot (by rw [← ht, List.length_take]; omega)
    have hrest : (l.drop n).count w = k :=
      ih (fun i hi => hlt i (List.mem_of_mem_drop hi)) (h.block (List.drop_suffix n l).isInfix)
        (by rw [List.length_drop]; omega)
    rw [← hsplit, List.count_append, hturn, hrest, Nat.add_comm]

end Rotation

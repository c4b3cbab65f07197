import Ycnt.Lib.Numeral
/-!
# Texts in the order of what they say

Lists are compared letter by letter, from the front. A writer `f` `Orders` a
relation `r` if its texts have one length and `r` puts them in this order. Writers
one behind the other order by the first field that differs.
-/

namespace Lexicographic

variable {α α' β : Type*} [LT β]

/-- What stands behind a smaller text of the same length does not matter. -/
theorem append_lt_append {s t : List β} (h : s < t) (hl : s.length = t.length) (u v : List β) : s ++ u < t ++ v := by
  induction s generalizing t with
  | nil =>
    obtain rfl := List.eq_nil_of_length_eq_zero hl.symm
    exact absurd h (List.not_lt_nil _)
  | cons a s ih =>
    obtain ⟨b, t, rfl⟩ := List.exists_cons_of_length_eq_add_one hl.symm
    rw [List.cons_append, List.cons_append, List.cons_lt_cons_iff]
    rcases List.cons_lt_cons_iff.1 h with hab | ⟨rfl, hst⟩
    · exact .inl hab
    · exact .inr ⟨rfl, ih hst (Nat.succ.inj hl)⟩

/-- On the values with `P`, `f` writes texts of one length, in the order `r`. -/
structure Orders (P : α → Prop) (r : α → α → Prop) (f : α → List β) : Prop where
  length : ∀ a b, P a → P b → (f a).length = (f b).length
  lt : ∀ a b, P a → P b → r a b → f a < f b

namespace Orders

variable {P Q : α → Prop} {r s : α → α → Prop} {f g : α → List β}

/-- A text that says nothing of the value. -/
theorem const (P : α → Prop) (text : List β) : Orders P (fun _ _ => False) fun _ => text :=
  ⟨fun _ _ _ _ => rfl, fun _ _ _ _ h => h.elim⟩

/-- The first of two fields decides where it differs. -/
theorem append (hf : Orders P r f) (hg : Orders P s g) :
    Orders P (fun a b => r a b ∨ (f a = f b ∧ s a b)) fun a => f a ++ g a := by
  refine ⟨fun a b ha hb => ?_, fun a b ha hb h => ?_⟩
  · rw [List.length_append, List.length_append, hf.length a b ha hb, hg.length a b ha hb]
  · rcases h with hr | ⟨heq, hs⟩
    · exact append_lt_append (hf.lt a b ha hb hr) (hf.length a b ha hb) _ _
    · rw [heq]
      exact List.append_left_lt (hg.lt a b ha hb hs)

/-- A field of a record. -/
theorem comap (hf : Orders P r f) (field : α' → α) : Orders (fun a => P (field a)) (fun a b => r (field a) (field b)) (f ∘ field) :=
  ⟨fun a b => hf.length (field a) (field b), fun a b => hf.lt (field a) (field b)⟩

theorem imp (hf : Orders P r f) (hP : ∀ a, Q a → P a) (hr : ∀ a b, Q a → Q b → s a b → r a b) : Orders Q s f :=
  ⟨fun a b ha hb => hf.length a b (hP a ha) (hP b hb), fun a b ha hb h => hf.lt a b (hP a ha) (hP b hb) (hr a b ha hb h)⟩

end Orders

end Lexicographic

namespace Numeral

open Lexicographic

/-! ## Numerals -/

/-- The value of a text by its first digit. -/
theorem Spells.uncons {c : UInt8} {ds : List UInt8} {n : Nat} (h : Spells (c :: ds) n) :
    ∃ m, Spells ds m ∧ n = (c.toNat - 48) * 10 ^ ds.length + m := by
  refine ⟨_, ⟨fun d hd => h.digits d (List.mem_cons_of_mem _ hd), rfl⟩, ?_⟩
  have hval := h.value
  rw [List.reverse_cons, List.map_append, Nat.ofDigits_append, List.map_singleton, Nat.ofDigits_singleton, List.length_map,
    List.length_reverse] at hval
  rw [← hval]
  ring

/-- Of two numbers spelled with as many digits, the smaller one has the smaller text. -/
theorem Spells.lt_of_lt {ds ds' : List UInt8} {n n' : Nat} (h : Spells ds n) (h' : Spells ds' n')
    (hl : ds.length = ds'.length) (hlt : n < n') : ds < ds' := by
  induction ds generalizing ds' n n' with
  | nil =>
    obtain rfl := List.eq_nil_of_length_eq_zero hl.symm
    have hn := h.value
    have hn' := h'.value
    omega
  | cons c ds ih =>
    obtain ⟨c', ds', rfl⟩ := List.exists_cons_of_length_eq_add_one hl.symm
    obtain ⟨m, hm, rfl⟩ := h.uncons
    obtain ⟨m', hm', rfl⟩ := h'.uncons
    have hl' : ds.length = ds'.length := Nat.succ.inj hl
    have hmlt := hm'.lt
    rw [← hl'] at hmlt hlt
    have hc := UInt8.le_iff_toNat_le.1 (h.digits c List.mem_cons_self).1
    have hc' := UInt8.le_iff_toNat_le.1 (h'.digits c' List.mem_cons_self).1
    have hz : (Char.toUInt8 '0').toNat = 48 := rfl
    rw [List.cons_lt_cons_iff]
    rcases Nat.lt_trichotomy c.toNat c'.toNat with hdig | hdig | hdig
    · exact .inl (UInt8.lt_iff_toNat_lt.2 hdig)
    · obtain rfl := UInt8.toNat_inj.1 hdig
      exact .inr ⟨rfl, ih hm hm' hl' (by omega)⟩
    · -- A greater first digit outweighs all that follow.
      exfalso
      have hmul : (c'.toNat - 48 + 1) * 10 ^ ds.length ≤ (c.toNat - 48) * 10 ^ ds.length :=
        Nat.mul_le_mul_right _ (by omega)
      rw [Nat.add_mul, Nat.one_mul] at hmul
      omega

theorem zeroPadded_spells (w n : Nat) : Spells (zeroPadded w n) n := by
  have h := parseNat_zeroPadded w n
  unfold parseNat at h
  split at h
  · rename_i hd
    exact ⟨hd.2, Option.some.inj h⟩
  · cases h

/-- Numbers of at most `w` digits. -/
def Within (w : Nat) (v : Int) : Prop := 0 ≤ v ∧ v < 10 ^ w

theorem zeroPadded_length_of_within {w : Nat} (hw : 0 < w) {v : Int} (h : Within w v) : (zeroPadded w v).length = w := by
  obtain ⟨n, rfl⟩ := Int.eq_ofNat_of_zero_le h.1
  exact zeroPadded_length hw (by exact_mod_cast h.2)

theorem zeroPadded_orders {w : Nat} (hw : 0 < w) : Orders (Within w) (· < ·) (zeroPadded w) := by
  refine ⟨fun v v' h h' => ?_, fun v v' h h' hlt => ?_⟩
  · rw [zeroPadded_length_of_within hw h, zeroPadded_length_of_within hw h']
  · have hlen := (zeroPadded_length_of_within hw h).trans (zeroPadded_length_of_within hw h').symm
    obtain ⟨n, rfl⟩ := Int.eq_ofNat_of_zero_le h.1
    obtain ⟨n', rfl⟩ := Int.eq_ofNat_of_zero_le h'.1
    exact (zeroPadded_spells w n).lt_of_lt (zeroPadded_spells w n') hlen (by omega)

/-- A number of `w` digits needs no padding. -/
theorem ofInt_length {w : Nat} {v : Int} (h : 10 ^ w ≤ v ∧ v < 10 ^ (w + 1)) : (ofInt v).length = w + 1 := by
  obtain ⟨hlo, hhi⟩ := h
  have hpos : (0 : Int) < 10 ^ w := by positivity
  obtain ⟨n, rfl⟩ := Int.eq_ofNat_of_zero_le (hpos.le.trans hlo)
  have hlo : 10 ^ w ≤ n := by exact_mod_cast hlo
  have hhi : n < 10 ^ (w + 1) := by exact_mod_cast hhi
  have hn : n ≠ 0 := by
    have : 0 < 10 ^ w := by positivity
    omega
  have hle := ofNat_length_le (Nat.succ_pos w) hhi
  have hge : ¬ (ofNat n).length ≤ w := by
    simp only [ofNat, lowFirst, if_neg hn, List.length_reverse, List.length_map]
    rw [Nat.digits_length_le_iff (by decide)]
    omega
  have hs : sign (n : Int) = [] := by simp [sign]
  rw [ofInt, hs, List.nil_append, Int.natAbs_natCast]
  omega

theorem blankPadded_eq_ofInt {w : Nat} {v : Int} (h : w ≤ (ofInt v).length) : blankPadded w v = ofInt v := by
  rw [blankPadded, Nat.sub_eq_zero_of_le h]
  rfl

theorem zeroPadded_eq_ofInt {w : Nat} {v : Int} (h : w ≤ (ofInt v).length) : zeroPadded w v = ofInt v := by
  rw [zeroPadded, Nat.sub_eq_zero_of_le h, List.replicate_zero, List.append_nil]
  rfl

theorem ofInt_orders (w : Nat) : Orders (fun v => 10 ^ w ≤ v ∧ v < 10 ^ (w + 1)) (· < ·) ofInt := by
  have heq : ∀ v : Int, 10 ^ w ≤ v ∧ v < 10 ^ (w + 1) → ofInt v = zeroPadded (w + 1) v := fun v h =>
    (zeroPadded_eq_ofInt (ofInt_length h).ge).symm
  have hin : ∀ v : Int, 10 ^ w ≤ v ∧ v < 10 ^ (w + 1) → Within (w + 1) v := fun v h =>
    ⟨(by positivity : (0 : Int) ≤ 10 ^ w).trans h.1, h.2⟩
  refine ⟨fun v v' h h' => by rw [ofInt_length h, ofInt_length h'], fun v v' h h' hlt => ?_⟩
  rw [heq v h, heq v' h']
  exact (zeroPadded_orders (Nat.succ_pos w)).lt v v' (hin v h) (hin v' h') hlt

end Numeral

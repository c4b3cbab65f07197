import Mathlib.Data.FinEnum
import Mathlib.Data.Nat.Digits.Lemmas
/-!
# Decimal numerals

`ofInt v` is the text of `v` as bytes: a `-` where `v` is negative, then its
digits, the highest first, without a leading zero. `parse` reads such a text.
-/

namespace Numeral

/-- The byte of a digit. -/
def digit (d : Nat) : UInt8 := Char.toUInt8 '0' + d.toUInt8

def IsDigit (c : UInt8) : Prop := Char.toUInt8 '0' ≤ c ∧ c ≤ Char.toUInt8 '9'

instance : DecidablePred IsDigit := fun _ => instDecidableAnd

/-- The digits of `n`, the lowest first. -/
def lowFirst (n : Nat) : List UInt8 := (if n = 0 then [0] else Nat.digits 10 n).map digit

def ofNat (n : Nat) : List UInt8 := (lowFirst n).reverse

def sign (v : Int) : List UInt8 := if v < 0 then [Char.toUInt8 '-'] else []

def ofInt (v : Int) : List UInt8 := sign v ++ ofNat v.natAbs

def parseNat (ds : List UInt8) : Option Nat :=
  if ds ≠ [] ∧ ∀ c ∈ ds, IsDigit c then some (Nat.ofDigits 10 (ds.reverse.map fun c => c.toNat - 48)) else none

def parse : List UInt8 → Option Int
  | [] => none
  | c :: ds =>
    if c = Char.toUInt8 '-' then (parseNat ds).map fun n : Nat => -n else (parseNat (c :: ds)).map fun n : Nat => n

/-- Digits, with no zero in front of others. -/
structure Canonical (ds : List UInt8) : Prop where
  ne_nil : ds ≠ []
  digits : ∀ c ∈ ds, IsDigit c
  no_leading_zero : ds.head? = some (Char.toUInt8 '0') → ds = [Char.toUInt8 '0']

/-! ## Digits -/

theorem digit_toNat {d : Nat} (h : d < 10) : (digit d).toNat = 48 + d := by
  have hz : (Char.toUInt8 '0').toNat = 48 := rfl
  rw [digit, UInt8.toNat_add, hz, Nat.toUInt8, UInt8.toNat_ofNat']
  omega

theorem digit_isDigit {d : Nat} (h : d < 10) : IsDigit (digit d) := by
  have hz : (Char.toUInt8 '0').toNat = 48 := rfl
  have hn : (Char.toUInt8 '9').toNat = 57 := rfl
  have hd := digit_toNat h
  constructor <;> rw [UInt8.le_iff_toNat_le] <;> omega

theorem IsDigit.ne_zero {c : UInt8} (h : IsDigit c) : c ≠ 0 := by
  rintro rfl
  exact absurd h (by decide)

/-! ## The digits of a number -/

theorem lowFirst_of_lt {n : Nat} (h : n < 10) : lowFirst n = [digit (n % 10)] := by
  rw [Nat.mod_eq_of_lt h]
  by_cases h0 : n = 0
  · simp [lowFirst, h0]
  · simp [lowFirst, h0, Nat.digits_of_lt 10 n h0 h]

theorem lowFirst_of_le {n : Nat} (h : 10 ≤ n) : lowFirst n = digit (n % 10) :: lowFirst (n / 10) := by
  have h0 : n ≠ 0 := by omega
  have hd : n / 10 ≠ 0 := by omega
  simp only [lowFirst, if_neg h0, if_neg hd]
  rw [Nat.digits_def' (by decide) (by omega), List.map_cons]

theorem lowFirst_ne_nil (n : Nat) : lowFirst n ≠ [] := by
  by_cases h : n < 10
  · simp [lowFirst_of_lt h]
  · simp [lowFirst_of_le (not_lt.1 h)]

theorem lowFirst_lt {n d : Nat} (h : d ∈ (if n = 0 then [0] else Nat.digits 10 n)) : d < 10 := by
  by_cases h0 : n = 0
  · rw [if_pos h0, List.mem_singleton] at h
    omega
  · rw [if_neg h0] at h
    exact Nat.digits_lt_base (by decide) h

theorem ofNat_canonical (n : Nat) : Canonical (ofNat n) := by
  refine ⟨?_, fun c hc => ?_, fun h => ?_⟩
  · simpa [ofNat] using lowFirst_ne_nil n
  · rw [ofNat, List.mem_reverse, lowFirst, List.mem_map] at hc
    obtain ⟨d, hd, rfl⟩ := hc
    exact digit_isDigit (lowFirst_lt hd)
  · by_cases h0 : n = 0
    · subst h0
      rfl
    · -- The highest digit of a positive number is not zero.
      exfalso
      have hne : Nat.digits 10 n ≠ [] := Nat.digits_ne_nil_iff_ne_zero.2 h0
      rw [ofNat, lowFirst, if_neg h0, List.head?_reverse, List.getLast?_map, List.getLast?_eq_getLast_of_ne_nil hne,
        Option.map_some, Option.some.injEq] at h
      have hlast := Nat.getLast_digit_ne_zero 10 h0
      have hlt : (Nat.digits 10 n).getLast hne < 10 := Nat.digits_lt_base (by decide) (List.getLast_mem hne)
      have hz : (Char.toUInt8 '0').toNat = 48 := rfl
      rw [← UInt8.toNat_inj, digit_toNat hlt] at h
      omega

/-- One digit more than the power of ten that a number reaches. -/
theorem ofNat_length_le {n k : Nat} (hk : 0 < k) (h : n < 10 ^ k) : (ofNat n).length ≤ k := by
  by_cases h0 : n = 0
  · simp only [ofNat, lowFirst, h0, if_true, List.map_cons, List.map_nil, List.length_reverse, List.length_singleton]
    omega
  · simp only [ofNat, lowFirst, if_neg h0, List.length_reverse, List.length_map]
    exact (Nat.digits_length_le_iff (by decide) n).2 h

/-! ## Reading a numeral -/

theorem parseNat_ofNat (n : Nat) : parseNat (ofNat n) = some n := by
  have hc := ofNat_canonical n
  unfold parseNat
  rw [if_pos ⟨hc.ne_nil, hc.digits⟩, ofNat, List.reverse_reverse, lowFirst, List.map_map]
  congr 1
  have hid : ∀ d ∈ (if n = 0 then [0] else Nat.digits 10 n), ((fun c : UInt8 => c.toNat - 48) ∘ digit) d = id d := by
    intro d hd
    simp [digit_toNat (lowFirst_lt hd)]
  rw [List.map_congr_left hid, List.map_id]
  by_cases h0 : n = 0
  · simp [h0]
  · rw [if_neg h0, Nat.ofDigits_digits]

/-- Reading the text of a value gives it back. -/
theorem parse_ofInt (v : Int) : parse (ofInt v) = some v := by
  by_cases hv : v < 0
  · simp only [ofInt, sign, if_pos hv, List.singleton_append, parse, if_true, parseNat_ofNat, Option.map_some]
    congr 1
    omega
  · obtain ⟨c, ds, hcons⟩ := List.exists_cons_of_ne_nil (ofNat_canonical v.natAbs).ne_nil
    have hc : c ≠ Char.toUInt8 '-' := by
      intro hc
      have hd := (ofNat_canonical v.natAbs).digits c (by simp [hcons])
      rw [hc] at hd
      exact absurd hd (by decide)
    simp only [ofInt, sign, if_neg hv, List.nil_append]
    rw [hcons, parse, if_neg hc, ← hcons, parseNat_ofNat, Option.map_some]
    congr 1
    omega

theorem ofInt_injective : Function.Injective ofInt := by
  intro v w h
  have := congrArg parse h
  rw [parse_ofInt, parse_ofInt] at this
  exact Option.some.inj this

theorem ofInt_length_le {v : Int} {k : Nat} (hk : 0 < k) (h : v.natAbs < 10 ^ k) : (ofInt v).length ≤ k + 1 := by
  have := ofNat_length_le hk h
  simp only [ofInt, sign, List.length_append]
  split
  · rw [List.length_singleton]
    omega
  · rw [List.length_nil]
    omega

theorem mem_ofInt {v : Int} {c : UInt8} (h : c ∈ ofInt v) : c = Char.toUInt8 '-' ∨ IsDigit c := by
  rcases List.mem_append.1 h with h | h
  · unfold sign at h
    split at h
    · exact .inl (List.mem_singleton.1 h)
    · cases h
  · exact .inr ((ofNat_canonical _).digits c h)

theorem ofInt_ne_nil (v : Int) : ofInt v ≠ [] := by
  simp [ofInt, (ofNat_canonical v.natAbs).ne_nil]

/-- No byte of a numeral is a NUL. -/
theorem ofInt_ne_zero {v : Int} {c : UInt8} (h : c ∈ ofInt v) : c ≠ 0 := by
  rcases mem_ofInt h with rfl | h
  · decide
  · exact h.ne_zero

/-! ## Padding to a width, on the left -/

/-- With blanks, as by `%5d` for a width of 5. -/
def blankPadded (w : Nat) (v : Int) : List UInt8 :=
  List.replicate (w - (ofInt v).length) (Char.toUInt8 ' ') ++ ofInt v

/-- With zeros, as by `%06d` for a width of 6. -/
def zeroPadded (w : Nat) (v : Int) : List UInt8 :=
  sign v ++ List.replicate (w - (ofInt v).length) (Char.toUInt8 '0') ++ ofNat v.natAbs

theorem blankPadded_length_le {w k : Nat} {v : Int} (hw : w ≤ k) (h : (ofInt v).length ≤ k) :
    (blankPadded w v).length ≤ k := by
  simp only [blankPadded, List.length_append, List.length_replicate]
  omega

theorem blankPadded_ne_zero {w : Nat} {v : Int} {c : UInt8} (h : c ∈ blankPadded w v) : c ≠ 0 := by
  rcases List.mem_append.1 h with h | h
  · rw [List.eq_of_mem_replicate h]
    decide
  · exact ofInt_ne_zero h

theorem blankPadded_ne_nil (w : Nat) (v : Int) : blankPadded w v ≠ [] := by
  simp [blankPadded, ofInt_ne_nil]

theorem zeroPadded_length {w n : Nat} (hw : 0 < w) (h : n < 10 ^ w) : (zeroPadded w n).length = w := by
  have hn : ¬ (n : Int) < 0 := by omega
  have := ofNat_length_le hw h
  simp only [zeroPadded, ofInt, sign, if_neg hn, List.nil_append, Int.natAbs_natCast, List.length_append,
    List.length_replicate]
  omega

theorem zeroPadded_length_le {w k : Nat} {v : Int} (hw : w ≤ k) (h : (ofInt v).length ≤ k) :
    (zeroPadded w v).length ≤ k := by
  have hlen : (ofInt v).length = (sign v).length + (ofNat v.natAbs).length := by rw [ofInt, List.length_append]
  simp only [zeroPadded, List.length_append, List.length_replicate]
  omega

/-- Zeros in front do not change what a numeral says. -/
theorem parseNat_zeroPadded (w n : Nat) : parseNat (zeroPadded w n) = some n := by
  have hn : ¬ (n : Int) < 0 := by omega
  have hzero : (Char.toUInt8 '0').toNat - 48 = 0 := rfl
  have hc := ofNat_canonical n
  have h := parseNat_ofNat n
  rw [parseNat, if_pos ⟨hc.ne_nil, hc.digits⟩, Option.some.injEq] at h
  rw [zeroPadded, sign, if_neg hn, List.nil_append, Int.natAbs_natCast, parseNat, if_pos]
  · rw [List.reverse_append, List.map_append, Nat.ofDigits_append, h]
    simp [hzero]
  · refine ⟨by simp [hc.ne_nil], fun c hc' => ?_⟩
    rcases List.mem_append.1 hc' with hc' | hc'
    · rw [List.eq_of_mem_replicate hc']
      decide
    · exact hc.digits c hc'

theorem zeroPadded_inj {w : Nat} {v v' : Int} (hv : 0 ≤ v) (hv' : 0 ≤ v') (h : zeroPadded w v = zeroPadded w v') :
    v = v' := by
  obtain ⟨n, rfl⟩ := Int.eq_ofNat_of_zero_le hv
  obtain ⟨n', rfl⟩ := Int.eq_ofNat_of_zero_le hv'
  have := congrArg parseNat h
  rw [parseNat_zeroPadded, parseNat_zeroPadded, Option.some.injEq] at this
  rw [this]

theorem mem_zeroPadded {w : Nat} {v : Int} {c : UInt8} (h : c ∈ zeroPadded w v) : c = Char.toUInt8 '-' ∨ IsDigit c := by
  rw [zeroPadded, List.append_assoc, List.mem_append, List.mem_append] at h
  rcases h with h | h | h
  · exact mem_ofInt (List.mem_append_left _ h)
  · rw [List.eq_of_mem_replicate h]
    exact .inr (by decide)
  · exact .inr ((ofNat_canonical _).digits c h)

/-- Other characters than digits and the sign are not in a numeral. -/
theorem notMem_ofInt {c : UInt8} (hc : ¬ (c = Char.toUInt8 '-' ∨ IsDigit c)) (v : Int) : c ∉ ofInt v := fun h => hc (mem_ofInt h)

theorem notMem_zeroPadded {c : UInt8} (hc : ¬ (c = Char.toUInt8 '-' ∨ IsDigit c)) (w : Nat) (v : Int) :
    c ∉ zeroPadded w v := fun h => hc (mem_zeroPadded h)

/-- Reading a padded numeral gives its value, negative ones included. -/
theorem parse_zeroPadded (w : Nat) (v : Int) : parse (zeroPadded w v) = some v := by
  by_cases hv : v < 0
  · obtain ⟨n, hn⟩ : ∃ n : Nat, v = -(n : Int) := ⟨v.natAbs, by omega⟩
    -- Behind the sign stands the padded text of the absolute value.
    have hnat : parseNat (List.replicate (w - (ofInt v).length) (Char.toUInt8 '0') ++ ofNat v.natAbs) = some n := by
      have hlen : (ofInt v).length = (ofInt n).length + 1 := by
        simp [ofInt, sign, hn, show 0 < n by omega, Nat.add_comm]
      have hpad := parseNat_zeroPadded (w - 1) n
      rw [zeroPadded, sign, if_neg (by omega), List.nil_append, Int.natAbs_natCast] at hpad
      rw [hlen, ← hpad, show v.natAbs = n by omega, show w - ((ofInt n).length + 1) = w - 1 - (ofInt n).length by omega]
    rw [zeroPadded, sign, if_pos hv, List.append_assoc, List.singleton_append, parse, if_pos rfl, hnat, Option.map_some, hn]
  · obtain ⟨n, rfl⟩ := Int.eq_ofNat_of_zero_le (not_lt.1 hv)
    have hpad := parseNat_zeroPadded w n
    have hdigits : ∀ c ∈ zeroPadded w n, IsDigit c := by
      unfold parseNat at hpad
      split at hpad
      · rename_i hd
        exact hd.2
      · cases hpad
    obtain ⟨c, ds, hcons⟩ : ∃ c ds, zeroPadded w n = c :: ds := by
      refine List.exists_cons_of_ne_nil fun hnil => ?_
      rw [hnil] at hpad
      simp [parseNat] at hpad
    have hc : c ≠ Char.toUInt8 '-' := by
      rintro rfl
      exact absurd (hdigits (Char.toUInt8 '-') (by simp [hcons])) (by decide)
    rw [hcons, parse, if_neg hc, ← hcons, hpad, Option.map_some]

theorem zeroPadded_injective (w : Nat) : Function.Injective (zeroPadded w) := by
  intro v v' h
  have := congrArg parse h
  rw [parse_zeroPadded, parse_zeroPadded] at this
  exact Option.some.inj this

theorem blankPadded_injective (w : Nat) : Function.Injective (blankPadded w) := by
  -- The numeral begins behind the blanks.
  have hdrop : ∀ v, (blankPadded w v).dropWhile (· = Char.toUInt8 ' ') = ofInt v := by
    intro v
    obtain ⟨c, ds, hcons⟩ := List.exists_cons_of_ne_nil (ofInt_ne_nil v)
    have hc : c ≠ Char.toUInt8 ' ' := by
      rintro rfl
      rcases mem_ofInt (hcons ▸ List.mem_cons_self) with h | h
      · exact absurd h (by decide)
      · exact absurd h (by decide)
    rw [blankPadded, List.dropWhile_append_of_pos (by simp), hcons, List.dropWhile_cons_of_neg (by simpa using hc)]
  intro v v' h
  have := congrArg (List.dropWhile (· = Char.toUInt8 ' ')) h
  rw [hdrop, hdrop] at this
  exact ofInt_injective this

/-! ## Numerals within a text -/

/-- What is read up to the first byte that does not belong to it. -/
theorem span_append {p : UInt8 → Bool} {l r : List UInt8} (hl : ∀ c ∈ l, p c) (hr : ∀ c ∈ r.head?, ¬ p c) :
    (l ++ r).span p = (l, r) := by
  rw [List.span_eq_takeWhile_dropWhile, List.takeWhile_append_of_pos hl, List.dropWhile_append_of_pos hl]
  cases r with
  | nil => rw [List.takeWhile_nil, List.dropWhile_nil, List.append_nil]
  | cons c r =>
    have hc := hr c rfl
    rw [List.takeWhile_cons_of_neg hc, List.dropWhile_cons_of_neg hc, List.append_nil]

/-! ## Spelling a number digit by digit, the highest first -/

/-- The digits of `n`, perhaps behind zeros. -/
structure Spells (ds : List UInt8) (n : Nat) : Prop where
  digits : ∀ c ∈ ds, IsDigit c
  value : Nat.ofDigits 10 (ds.reverse.map fun c => c.toNat - 48) = n

theorem spells_nil : Spells [] 0 := ⟨List.forall_mem_nil _, rfl⟩

theorem Spells.concat {ds : List UInt8} {n d : Nat} (h : Spells ds n) (hd : d < 10) :
    Spells (ds ++ [digit d]) (10 * n + d) := by
  constructor
  · rw [List.forall_mem_append]
    exact ⟨h.digits, List.forall_mem_singleton.2 (digit_isDigit hd)⟩
  · rw [List.reverse_append, List.map_append, Nat.ofDigits_append, h.value]
    simp only [List.reverse_singleton, List.map_singleton, List.length_singleton, Nat.ofDigits_singleton, digit_toNat hd]
    omega

theorem Spells.append {ds ds' : List UInt8} {n n' : Nat} (h : Spells ds n) (h' : Spells ds' n') :
    Spells (ds ++ ds') (n * 10 ^ ds'.length + n') := by
  refine ⟨List.forall_mem_append.2 ⟨h.digits, h'.digits⟩, ?_⟩
  rw [List.reverse_append, List.map_append, Nat.ofDigits_append, h.value, h'.value, List.length_map, List.length_reverse,
    Nat.mul_comm, Nat.add_comm]

theorem spells_zeros (j : Nat) : Spells (List.replicate j (Char.toUInt8 '0')) 0 := by
  induction j with
  | zero => exact spells_nil
  | succ j ih =>
    rw [List.replicate_succ']
    exact ih.concat (d := 0) (by decide)

theorem Spells.ne_zero {ds : List UInt8} {n : Nat} (h : Spells ds n) : ∀ c ∈ ds, c ≠ 0 := fun c hc => (h.digits c hc).ne_zero

theorem Spells.lt {ds : List UInt8} {n : Nat} (h : Spells ds n) : n < 10 ^ ds.length := by
  have hlt : ∀ d ∈ ds.reverse.map (fun c => c.toNat - 48), d < 10 := by
    intro d hd
    obtain ⟨c, hc, rfl⟩ := List.mem_map.1 hd
    have hnine := UInt8.le_iff_toNat_le.1 (h.digits c (List.mem_reverse.1 hc)).2
    have hn : (Char.toUInt8 '9').toNat = 57 := rfl
    omega
  have := Nat.ofDigits_lt_base_pow_length (b := 10) (by decide) hlt
  rwa [h.value, List.length_map, List.length_reverse] at this

-- "-105"
example : ofInt (-105) = [45, 49, 48, 53] := by decide +kernel

end Numeral

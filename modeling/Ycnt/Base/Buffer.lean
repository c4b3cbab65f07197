import Mathlib.Data.List.Basic
import Mathlib.Logic.Function.Basic
import Ycnt.Lib.Total
/-!
# Fixed buffers

`FixedBuffer` (`Buffer.h`). `cur_` and `end_` are offsets into `data_`; a
`cur_` past the end cannot be built.
-/

namespace Ycnt

open Total

def kSmallBufferSize : Nat := 4096

def kLargeBufferSize : Nat := 4096 * 1024

/-- `data i` is the byte at `data_ + i`, for `i` below `SIZE`. -/
structure FixedBuffer (SIZE : Nat) where
  data : Nat → UInt8
  cur : Nat
  cur_le : cur ≤ SIZE

namespace FixedBuffer

variable {SIZE : Nat} (b : FixedBuffer SIZE)

/-- The constructor; `data_` is not initialised. -/
def new (data : Nat → UInt8) : FixedBuffer SIZE := ⟨data, 0, Nat.zero_le _⟩

def length : Nat := b.cur

def avail : Nat := SIZE - b.cur

/-- The bytes from `data()` on, `length()` of them. -/
def contents : List UInt8 := (List.range b.cur).map b.data

/-- `memcpy` of as many of the `len` bytes at `buf` as fit. Also returns their number. -/
def append (buf : Nat → UInt8) (len : Nat) : Nat × FixedBuffer SIZE :=
  let actualLen := min b.avail len
  (actualLen,
    { data := fun i => if b.cur ≤ i ∧ i < b.cur + actualLen then buf (i - b.cur) else b.data i
      cur := b.cur + actualLen
      cur_le := by have := b.cur_le; simp only [actualLen, avail]; omega })

def reset : FixedBuffer SIZE := { b with cur := 0, cur_le := Nat.zero_le _ }

/-- `cur_ += len`, which must stay within `data_`. -/
def add (len : Nat) : Option (FixedBuffer SIZE) :=
  if h : b.cur + len ≤ SIZE then some { b with cur := b.cur + len, cur_le := h } else none

/-! Accesses through pointers, which are offsets into `data_`; `none` outside it. -/

def store (p : Int) (c : UInt8) : Option (FixedBuffer SIZE) :=
  if 0 ≤ p ∧ p < SIZE then some { b with data := Function.update b.data p.toNat c } else none

def load (p : Int) : Option UInt8 := if 0 ≤ p ∧ p < SIZE then some (b.data p.toNat) else none

def memmove (dest src : Int) (count : Nat) : Option (FixedBuffer SIZE) :=
  if (0 ≤ dest ∧ dest + count ≤ SIZE) ∧ 0 ≤ src ∧ src + count ≤ SIZE then
    some { b with data := fun i => if dest ≤ i ∧ i < dest + count then b.data (src + (i - dest)).toNat else b.data i }
  else none

/-- `std::reverse(first, last)`. -/
def reverse (first last : Int) : Option (FixedBuffer SIZE) :=
  if 0 ≤ first ∧ first ≤ last ∧ last ≤ SIZE then
    some { b with data := fun i => if first ≤ i ∧ i < last then b.data (first + (last - 1 - i)).toNat else b.data i }
  else none

theorem length_add_avail : b.length + b.avail = SIZE := by
  have := b.cur_le
  unfold length avail
  omega

@[simp] theorem contents_length : b.contents.length = b.length := by
  simp [contents, length]

@[simp] theorem contents_new (data : Nat → UInt8) : (new data : FixedBuffer SIZE).contents = [] := rfl

@[simp] theorem contents_reset : b.reset.contents = [] := rfl

theorem contents_append (buf : Nat → UInt8) (len : Nat) :
    (b.append buf len).2.contents = b.contents ++ (List.range (min b.avail len)).map buf := by
  simp only [contents, append, List.range_add, List.map_append, List.map_map]
  congr 1
  · apply List.map_congr_left
    intro i hi
    have hlt : i < b.cur := List.mem_range.1 hi
    rw [if_neg (by omega)]
  · apply List.map_congr_left
    intro i hi
    have hlt := List.mem_range.1 hi
    simp only [Function.comp_apply]
    rw [if_pos (by omega), Nat.add_sub_cancel_left]

/-- `b'` differs from `b` in bytes of `data_` only. -/
structure Keeps (b b' : FixedBuffer SIZE) : Prop where
  cur : b'.cur = b.cur
  outside : ∀ i, SIZE ≤ i → b'.data i = b.data i

theorem keeps_refl : b.Keeps b := ⟨rfl, fun _ _ => rfl⟩

theorem Keeps.trans {b b' b'' : FixedBuffer SIZE} (h : b.Keeps b') (h' : b'.Keeps b'') : b.Keeps b'' :=
  ⟨h'.cur.trans h.cur, fun i hi => (h'.outside i hi).trans (h.outside i hi)⟩

theorem append_outside (buf : Nat → UInt8) (len : Nat) {i : Nat} (hi : SIZE ≤ i) : (b.append buf len).2.data i = b.data i := by
  have := b.cur_le
  unfold append avail
  exact if_neg (by omega)

theorem store_ends {p : Int} (h : 0 ≤ p ∧ p < SIZE) (c : UInt8) : Ends (b.store p c) b.Keeps := by
  unfold store
  rw [if_pos h]
  exact ends_some ⟨rfl, fun i hi => Function.update_of_ne (by omega) _ _⟩

theorem load_ends {p : Int} (h : 0 ≤ p ∧ p < SIZE) : Ends (b.load p) fun _ => True := by
  unfold load
  rw [if_pos h]
  exact ends_some trivial

theorem memmove_ends {dest src : Int} {count : Nat} (hd : 0 ≤ dest ∧ dest + count ≤ SIZE)
    (hs : 0 ≤ src ∧ src + count ≤ SIZE) : Ends (b.memmove dest src count) b.Keeps := by
  unfold memmove
  rw [if_pos ⟨hd, hs⟩]
  exact ends_some ⟨rfl, fun i hi => if_neg (by omega)⟩

theorem reverse_ends {first last : Int} (h : 0 ≤ first ∧ first ≤ last ∧ last ≤ SIZE) :
    Ends (b.reverse first last) b.Keeps := by
  unfold reverse
  rw [if_pos h]
  exact ends_some ⟨rfl, fun i hi => if_neg (by omega)⟩

theorem add_ends {len : Nat} (h : b.cur + len ≤ SIZE) : Ends (b.add len) fun b' => b'.data = b.data := by
  unfold add
  rw [dif_pos h]
  exact ends_some rfl

/-- What fits is appended whole. -/
theorem contents_append_of_le (buf : Nat → UInt8) {len : Nat} (h : len ≤ b.avail) :
    (b.append buf len).2.contents = b.contents ++ (List.range len).map buf := by
  rw [contents_append, Nat.min_eq_right h]

/-! ## What is written -/

/-- The string of C at `data_ + p`: its bytes up to the first NUL, or to the end of `data_`. -/
def cString (p : Nat) : List UInt8 := ((List.range (SIZE - p)).map fun i => b.data (p + i)).takeWhile (· ≠ 0)

/-- `b'` has the bytes of `b` in front of `p` and the text `l` from `p` on. -/
structure Writes (p : Nat) (l : List UInt8) (b' : FixedBuffer SIZE) : Prop where
  cur : b'.cur = b.cur
  before : ∀ i, i < p → b'.data i = b.data i
  text : ∀ i, i < l.length → l[i]? = some (b'.data (p + i))

variable {b} {b' : FixedBuffer SIZE} {p : Nat} {l r : List UInt8}

theorem writes_nil (b : FixedBuffer SIZE) (p : Nat) : b.Writes p [] b := ⟨rfl, fun _ _ => rfl, fun _ h => absurd h (Nat.not_lt_zero _)⟩

/-- What stands behind a text belongs to a longer one. -/
theorem Writes.extend (h : b.Writes p l b') (n : Nat) : ∃ g : List UInt8, g.length = n ∧ b.Writes p (l ++ g) b' := by
  refine ⟨(List.range n).map fun i => b'.data (p + (l.length + i)), by simp, h.cur, h.before, fun i hi => ?_⟩
  by_cases hl : i < l.length
  · rw [List.getElem?_append_left hl, h.text i hl]
  · rw [List.length_append, List.length_map, List.length_range] at hi
    have hn : i - l.length < n := by omega
    have hi' : l.length + (i - l.length) = i := by omega
    rw [List.getElem?_append_right (by omega), List.getElem?_map, List.getElem?_range hn, Option.map_some, hi']

/-- A text right behind a text. -/
theorem Writes.append {b'' : FixedBuffer SIZE} (h : b.Writes p l b') (h' : b'.Writes (p + l.length) r b'') :
    b.Writes p (l ++ r) b'' := by
  refine ⟨h'.cur.trans h.cur, fun i hi => (h'.before i (by omega)).trans (h.before i hi), fun i hi => ?_⟩
  by_cases hl : i < l.length
  · rw [List.getElem?_append_left hl, h.text i hl, h'.before (p + i) (by omega)]
  · rw [List.length_append] at hi
    have hi' : p + l.length + (i - l.length) = p + i := by omega
    rw [List.getElem?_append_right (by omega), h'.text (i - l.length) (by omega), hi']

/-- A byte within the text. -/
theorem Writes.set {x : UInt8} (h : b.Writes p (l ++ x :: r) b') (c : UInt8) {q : Int} (hq : q = p + l.length) :
    Yields (b'.store q c) (b.Writes p (l ++ c :: r)) := by
  unfold FixedBuffer.store
  refine yields_ite (fun _ => yields_some ?_) (fun _ => nofun)
  have hp : q.toNat = p + l.length := by omega
  refine ⟨h.cur, fun i hi => ?_, fun i hi => ?_⟩
  · rw [← h.before i hi]
    exact Function.update_of_ne (by omega) _ _
  · have htext := h.text i (by simpa using hi)
    dsimp only
    rw [hp]
    by_cases hl : i = l.length
    · subst hl
      rw [Function.update_self, List.getElem?_append_right (Nat.le_refl _), Nat.sub_self, List.getElem?_cons_zero]
    · have hset : l ++ c :: r = (l ++ x :: r).set l.length c := by
        rw [List.set_append_right _ _ (Nat.le_refl _), Nat.sub_self, List.set_cons_zero]
      rw [Function.update_of_ne (by omega), ← htext, hset, List.getElem?_set_ne (Ne.symm hl)]

/-- A byte right behind the text. -/
theorem Writes.store (h : b.Writes p l b') (c : UInt8) {q : Int} (hq : q = p + l.length) :
    Yields (b'.store q c) (b.Writes p (l ++ [c])) := by
  obtain ⟨g, hg, hw⟩ := h.extend 1
  obtain ⟨x, rfl⟩ := List.length_eq_one_iff.1 hg
  exact hw.set c hq

theorem Writes.load {c : UInt8} (h : b.Writes p (l ++ c :: r) b') {q : Int} (hq : q = p + l.length) :
    Yields (b'.load q) (· = c) := by
  unfold FixedBuffer.load
  refine yields_ite (fun _ => yields_some ?_) (fun _ => nofun)
  have htext := h.text l.length (by simp)
  have hp : q.toNat = p + l.length := by omega
  rw [List.getElem?_append_right (Nat.le_refl _), Nat.sub_self, List.getElem?_cons_zero, Option.some.injEq] at htext
  rw [hp, htext]

/-- The end `r` of a text moved on by `i` bytes; `g` is what is left between. -/
theorem Writes.memmove (h : b.Writes p (l ++ r) b') {dest src : Int} {count i : Nat} (hd : dest = p + l.length + i)
    (hs : src = p + l.length) (hc : count = r.length) :
    Yields (b'.memmove dest src count) fun b'' => ∃ g : List UInt8, g.length = i ∧ b.Writes p (l ++ (g ++ r)) b'' := by
  unfold FixedBuffer.memmove
  refine yields_ite (fun _ => yields_some ?_) (fun _ => nofun)
  refine ⟨(List.range i).map fun j => b'.data (p + l.length + j), by simp, h.cur, fun j hj => ?_, fun j hj => ?_⟩
  · rw [← h.before j hj]
    exact if_neg (by omega)
  · simp only [List.length_append, List.length_map, List.length_range] at hj
    dsimp only
    by_cases hl : j < l.length
    · have htext := h.text j (by rw [List.length_append]; omega)
      rw [List.getElem?_append_left hl] at htext
      rw [List.getElem?_append_left hl, if_neg (by omega), htext]
    · rw [List.getElem?_append_right (by omega)]
      by_cases hg : j - l.length < i
      · rw [List.getElem?_append_left (by simpa using hg), List.getElem?_map, List.getElem?_range hg, Option.map_some,
          if_neg (by omega)]
        congr 2
        omega
      · have htext := h.text (j - i) (by rw [List.length_append]; omega)
        rw [List.getElem?_append_right (by omega)] at htext
        rw [List.getElem?_append_right (by simp; omega), List.length_map, List.length_range, if_pos (by omega)]
        have hj' : j - l.length - i = j - i - l.length := by omega
        rw [hj', htext]
        congr 2
        omega

/-- The part `l` of a text, which starts at `p`, turned round. -/
theorem Writes.reverse (h : b.Writes p (l ++ r) b') {q : Int} (hq : q = p + l.length) :
    Yields (b'.reverse p q) (b.Writes p (l.reverse ++ r)) := by
  unfold FixedBuffer.reverse
  refine yields_ite (fun hb => yields_some ?_) (fun _ => nofun)
  refine ⟨h.cur, fun i hi => ?_, fun i hi => ?_⟩
  · rw [← h.before i hi]
    exact if_neg (by omega)
  · rw [List.length_append, List.length_reverse] at hi
    by_cases hl : i < l.length
    · have hlast : l.length - 1 - i < l.length := by omega
      have htext := h.text (l.length - 1 - i) (by rw [List.length_append]; omega)
      rw [List.getElem?_append_left hlast] at htext
      rw [List.getElem?_append_left (by rwa [List.length_reverse]), List.getElem?_reverse hl, htext]
      dsimp only
      rw [if_pos (by omega)]
      congr 2
      omega
    · have htext := h.text i (by rwa [List.length_append])
      rw [List.getElem?_append_right (by omega)] at htext
      rw [List.getElem?_append_right (by rw [List.length_reverse]; omega), List.length_reverse, htext]
      dsimp only
      rw [if_neg (by omega)]

/-- A text of no NUL and then one. -/
theorem Writes.cString (h : b.Writes p (l ++ [0]) b') (hl : ∀ c ∈ l, c ≠ 0) (hp : p + l.length < SIZE) :
    b'.cString p = l := by
  obtain ⟨n, hn⟩ : ∃ n, SIZE - p = (l ++ [0]).length + n := ⟨SIZE - p - (l ++ [0]).length, by simp; omega⟩
  have htext : (List.range (l ++ [0]).length).map (fun i => b'.data (p + i)) = l ++ [0] := by
    refine List.ext_getElem? fun i => ?_
    by_cases hi : i < (l ++ [0]).length
    · rw [h.text i hi, List.getElem?_map, List.getElem?_range hi, Option.map_some]
    · rw [List.getElem?_eq_none (by simpa using hi), List.getElem?_eq_none (by simpa using hi)]
  unfold FixedBuffer.cString
  rw [hn, List.range_add, List.map_append, htext, List.append_assoc, List.takeWhile_append_of_pos (by simpa using hl)]
  simp

/-- `cur_` moved over the beginning of a text that was written behind it. -/
theorem Writes.contents_add (h : b.Writes b.cur l b') {len : Nat} (hlen : len ≤ l.length) :
    Yields (b'.add len) fun b'' => b''.contents = b.contents ++ l.take len := by
  unfold FixedBuffer.add
  by_cases hc : b'.cur + len ≤ SIZE
  · rw [dif_pos hc]
    refine yields_some (List.ext_getElem? fun i => ?_)
    have hcur := h.cur
    simp only [contents, hcur]
    by_cases hi : i < b.cur
    · rw [List.getElem?_append_left (by simpa using hi)]
      simp [hi, h.before i hi, Nat.lt_add_right len hi]
    · rw [List.getElem?_append_right (by simpa using hi)]
      by_cases hlt : i < b.cur + len
      · have hk : i - b.cur < len := by omega
        have htext := h.text (i - b.cur) (by omega)
        have hi' : b.cur + (i - b.cur) = i := by omega
        simp [hlt, hk, htext, hi']
      · rw [List.getElem?_eq_none (by rw [List.length_map, List.length_range]; omega),
          List.getElem?_eq_none (by simp only [List.length_take, List.length_map, List.length_range]; omega)]
  · rw [dif_neg hc]
    exact nofun

end FixedBuffer

end Ycnt

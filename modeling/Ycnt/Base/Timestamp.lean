import Ycnt.Lib.CalendarText
/-!
# Time stamps

`Timestamp.h`, `Timestamp.cpp`: a number of microseconds since the epoch, and the
texts of it. The arithmetic on `double` (`timeDifference`, `addTime`) is left out.
-/

namespace Ycnt

open Numeral Calendar Lexicographic

/-- `microSecondsSinceEpoch_` is an `int64_t`. -/
structure Timestamp where
  microSecondsSinceEpoch : Int
  range : -2 ^ 63 ≤ microSecondsSinceEpoch ∧ microSecondsSinceEpoch < 2 ^ 63

namespace Timestamp

def kMicroSecondsPerSecond : Int := 1000 * 1000

def invalid : Timestamp := ⟨0, by decide⟩

variable (t : Timestamp)

def secondsSinceEpoch : Int := t.microSecondsSinceEpoch.tdiv kMicroSecondsPerSecond

/-- The `% kMicroSecondsPerSecond` in both texts, negative before the epoch. -/
def microseconds : Int := t.microSecondsSinceEpoch.tmod kMicroSecondsPerSecond

/-- `none` where the sum is no `int64_t`. `now` is this, of what `gettimeofday` says. -/
def fromUnixTime (seconds microseconds : Int) : Option Timestamp :=
  let us := seconds * kMicroSecondsPerSecond + microseconds
  if h : -2 ^ 63 ≤ us ∧ us < 2 ^ 63 then some ⟨us, h⟩ else none

/-- What `snprintf(buf, size, ..)` stores of a text. -/
def stored (size : Nat) (text : List UInt8) : List UInt8 := text.take (size - 1)

/-- "%lld.%06lld" -/
def secondsText : List UInt8 := ofInt t.secondsSinceEpoch ++ Char.toUInt8 '.' :: zeroPadded 6 t.microseconds

def toString : List UInt8 := stored (32 - 1) t.secondsText

/-- "%4d%02d%02d %02d:%02d:%02d" -/
def calendarText (tm : DateTime) : List UInt8 :=
  blankPadded 4 tm.year ++ DateTime.fields [Char.toUInt8 ' '] [Char.toUInt8 ':'] [Char.toUInt8 ':'] tm

/-- `gmtime_r` is `DateTime.ofSeconds`. -/
def formattedText (showMicroseconds : Bool) : List UInt8 :=
  let tm := DateTime.ofSeconds t.secondsSinceEpoch
  if showMicroseconds then calendarText tm ++ Char.toUInt8 '.' :: zeroPadded 6 t.microseconds else calendarText tm

def toFormattedString (showMicroseconds : Bool) : List UInt8 := stored 64 (t.formattedText showMicroseconds)

/-! ## The texts fit into their buffers -/

variable {t}

/-- Seconds and microseconds make up the time stamp. -/
theorem seconds_microseconds (t : Timestamp) :
    1000000 * t.secondsSinceEpoch + t.microseconds = t.microSecondsSinceEpoch :=
  Int.mul_tdiv_add_tmod t.microSecondsSinceEpoch kMicroSecondsPerSecond

theorem microseconds_mem (t : Timestamp) : t.microseconds.natAbs < 10 ^ 6 := by
  have hlo := Int.lt_tmod_of_pos t.microSecondsSinceEpoch (show 0 < kMicroSecondsPerSecond by decide)
  have hhi := Int.tmod_lt_of_pos t.microSecondsSinceEpoch (show 0 < kMicroSecondsPerSecond by decide)
  unfold microseconds
  unfold kMicroSecondsPerSecond at hlo hhi ⊢
  omega

theorem seconds_mem (t : Timestamp) : -9223372036855 ≤ t.secondsSinceEpoch ∧ t.secondsSinceEpoch ≤ 9223372036855 := by
  have := t.range
  have := t.seconds_microseconds
  have := t.microseconds_mem
  omega

/-- From the epoch on. -/
theorem parts_nonneg (h : 0 ≤ t.microSecondsSinceEpoch) : 0 ≤ t.secondsSinceEpoch ∧ 0 ≤ t.microseconds :=
  ⟨Int.tdiv_nonneg h (by decide), Int.tmod_nonneg _ h⟩

theorem fromUnixTime_seconds (t : Timestamp) : fromUnixTime t.secondsSinceEpoch t.microseconds = some t := by
  have heq : t.secondsSinceEpoch * kMicroSecondsPerSecond + t.microseconds = t.microSecondsSinceEpoch := by
    rw [Int.mul_comm]
    exact t.seconds_microseconds
  simp only [fromUnixTime, heq, dif_pos t.range]

theorem microsecondsText_length (t : Timestamp) : (zeroPadded 6 t.microseconds).length ≤ 7 :=
  zeroPadded_length_le (by decide) (ofInt_length_le (by decide) t.microseconds_mem)

theorem calendarText_length (t : Timestamp) : (calendarText (.ofSeconds t.secondsSinceEpoch)).length ≤ 20 := by
  have hs := t.seconds_mem
  have hy := Date.year_mem (t.secondsSinceEpoch / 86400)
  have hyear : (ofInt (DateTime.ofSeconds t.secondsSinceEpoch).year).length ≤ 7 :=
    ofInt_length_le (v := (Date.ofDays (t.secondsSinceEpoch / 86400)).year) (by decide) (by omega)
  have := blankPadded_length_le (w := 4) (by decide) hyear
  rw [calendarText, List.length_append, DateTime.fields_length]
  simp only [List.length_singleton]
  omega

theorem toString_eq (t : Timestamp) : t.toString = t.secondsText := by
  have hs := t.seconds_mem
  have hseconds : (ofInt t.secondsSinceEpoch).length ≤ 14 := ofInt_length_le (k := 13) (by decide) (by omega)
  have hmicro := t.microsecondsText_length
  refine List.take_of_length_le ?_
  simp only [secondsText, List.length_append, List.length_cons]
  omega

theorem toFormattedString_eq (t : Timestamp) (showMicroseconds : Bool) :
    t.toFormattedString showMicroseconds = t.formattedText showMicroseconds := by
  have hcalendar := t.calendarText_length
  have hmicro := t.microsecondsText_length
  refine List.take_of_length_le ?_
  cases showMicroseconds with
  | true =>
    simp only [formattedText, if_true, List.length_append, List.length_cons]
    omega
  | false =>
    simp only [formattedText, Bool.false_eq_true, if_false]
    omega

/-! ## What the texts tell -/

theorem notMem_calendarText {c : UInt8} (hc : ¬ (c = Char.toUInt8 '-' ∨ IsDigit c)) (hblank : c ≠ Char.toUInt8 ' ')
    (hcolon : c ≠ Char.toUInt8 ':') (tm : DateTime) : c ∉ calendarText tm := by
  simp [calendarText, DateTime.fields, blankPadded, notMem_ofInt hc, notMem_zeroPadded hc, hblank, hcolon]

theorem dot_notMem_calendarText (tm : DateTime) : Char.toUInt8 '.' ∉ calendarText tm :=
  notMem_calendarText (by decide) (by decide) (by decide) tm

/-- The text of a date and a time tells the second. -/
theorem calendarText_toSeconds {tm tm' : DateTime} (h : calendarText tm = calendarText tm') :
    tm.toSeconds = tm'.toSeconds := by
  obtain ⟨hyear, hfields⟩ := List.append_inj' h (by rw [DateTime.fields_length, DateTime.fields_length])
  exact DateTime.toSeconds_eq_of_fields _ _ _ (blankPadded_injective 4 hyear) hfields

theorem eq_of_parts {t t' : Timestamp} (hs : t.secondsSinceEpoch = t'.secondsSinceEpoch)
    (hm : t.microseconds = t'.microseconds) : t = t' := by
  have h := t.fromUnixTime_seconds
  rw [hs, hm, t'.fromUnixTime_seconds] at h
  exact (Option.some.inj h).symm

theorem formattedText_seconds {t t' : Timestamp}
    (h : calendarText (.ofSeconds t.secondsSinceEpoch) = calendarText (.ofSeconds t'.secondsSinceEpoch)) :
    t.secondsSinceEpoch = t'.secondsSinceEpoch := by
  have hs := calendarText_toSeconds h
  rwa [DateTime.toSeconds_ofSeconds, DateTime.toSeconds_ofSeconds] at hs

/-- No two time stamps have one text, the ones before the epoch included; without
the microseconds a text tells the second. No text is cut by its buffer. -/
theorem texts_tell : (∀ t t' : Timestamp, t.toString = t'.toString → t = t') ∧
    (∀ t t' : Timestamp, t.toFormattedString true = t'.toFormattedString true → t = t') ∧
    (∀ t t' : Timestamp, t.toFormattedString false = t'.toFormattedString false →
      t.secondsSinceEpoch = t'.secondsSinceEpoch) ∧
    ∀ t : Timestamp, t.toString = t.secondsText ∧ ∀ showMicroseconds,
      t.toFormattedString showMicroseconds = t.formattedText showMicroseconds := by
  refine ⟨fun t t' h => ?_, fun t t' h => ?_, fun t t' h => ?_, fun t => ⟨t.toString_eq, t.toFormattedString_eq⟩⟩
  · rw [toString_eq, toString_eq] at h
    obtain ⟨hs, -, hm⟩ := (List.append_cons_inj_of_notMem (notMem_ofInt (by decide) _) (notMem_zeroPadded (by decide) _ _)).1 h
    exact eq_of_parts (ofInt_injective hs) (zeroPadded_injective 6 hm)
  · rw [toFormattedString_eq, toFormattedString_eq] at h
    obtain ⟨hs, -, hm⟩ := (List.append_cons_inj_of_notMem (dot_notMem_calendarText _) (notMem_zeroPadded (by decide) _ _)).1 h
    exact eq_of_parts (formattedText_seconds hs) (zeroPadded_injective 6 hm)
  · rw [toFormattedString_eq, toFormattedString_eq] at h
    exact formattedText_seconds h

/-! ## The order of the texts -/

/-- From the epoch to the end of the year 9999. -/
def FourDigits (t : Timestamp) : Prop := 0 ≤ t.microSecondsSinceEpoch ∧ t.secondsSinceEpoch < 253402300800

theorem FourDigits.year_mem (h : t.FourDigits) :
    10 ^ 3 ≤ (DateTime.ofSeconds t.secondsSinceEpoch).year ∧ (DateTime.ofSeconds t.secondsSinceEpoch).year < 10 ^ 4 := by
  have hs : 0 ≤ t.secondsSinceEpoch / 86400 := Int.ediv_nonneg (parts_nonneg h.1).1 (by decide)
  have hlo : 1970 ≤ (DateTime.ofSeconds t.secondsSinceEpoch).year := (Date.year_le hs).1
  have hhi := DateTime.year_lt (d := .ofSeconds t.secondsSinceEpoch) (by rw [DateTime.toSeconds_ofSeconds]; exact h.2)
  omega

theorem formattedText_orders : Orders FourDigits (fun t t' => t.microSecondsSinceEpoch < t'.microSecondsSinceEpoch)
    (formattedText · true) := by
  have hyear : Orders (fun v : Int => 10 ^ 3 ≤ v ∧ v < 10 ^ 4) (· < ·) (blankPadded 4) := by
    have heq : ∀ v : Int, 10 ^ 3 ≤ v ∧ v < 10 ^ 4 → blankPadded 4 v = ofInt v := fun v h =>
      blankPadded_eq_ofInt (ofInt_length h).ge
    have hord := ofInt_orders 3
    exact ⟨fun v v' h h' => by rw [heq v h, heq v' h']; exact hord.length v v' h h',
      fun v v' h h' hlt => by rw [heq v h, heq v' h']; exact hord.lt v v' h h' hlt⟩
  have hcalendar := ((DateTime.orders_of_year [Char.toUInt8 ' '] [Char.toUInt8 ':'] [Char.toUInt8 ':'] hyear).comap
    fun t : Timestamp => DateTime.ofSeconds t.secondsSinceEpoch).imp (Q := FourDigits) (fun t ht => ht.year_mem)
      fun _ _ _ _ h => h
  have hmicro := ((zeroPadded_orders (w := 6) (by decide)).comap microseconds).imp (Q := FourDigits) (fun t ht => by
    have hm := t.microseconds_mem
    have := (parts_nonneg ht.1).2
    unfold Within
    omega) fun _ _ _ _ h => h
  have hdot := Orders.const FourDigits [Char.toUInt8 '.']
  refine (hcalendar.append (hdot.append hmicro)).imp (fun _ h => h) fun t t' ht ht' h => ?_
  have heq := t.seconds_microseconds
  have heq' := t'.seconds_microseconds
  have hm := t.microseconds_mem
  have hm' := t'.microseconds_mem
  have hpos := (parts_nonneg ht.1).2
  have hpos' := (parts_nonneg ht'.1).2
  rw [DateTime.toSeconds_ofSeconds, DateTime.toSeconds_ofSeconds]
  by_cases hs : t.secondsSinceEpoch < t'.secondsSinceEpoch
  · exact .inl hs
  · have hs : t.secondsSinceEpoch = t'.secondsSinceEpoch := by omega
    refine .inr ⟨?_, .inr ⟨rfl, ?_⟩⟩
    · simp only [Function.comp_apply, hs]
    · omega

/-- Up to the year 9999 the texts sort as the time stamps do. -/
theorem formattedString_lt_iff {t t' : Timestamp} (h : t.FourDigits) (h' : t'.FourDigits) :
    t.toFormattedString true < t'.toFormattedString true ↔ t.microSecondsSinceEpoch < t'.microSecondsSinceEpoch := by
  rw [toFormattedString_eq, toFormattedString_eq]
  refine ⟨fun hlt => ?_, formattedText_orders.lt t t' h h'⟩
  rcases Int.lt_trichotomy t.microSecondsSinceEpoch t'.microSecondsSinceEpoch with hus | hus | hus
  · exact hus
  · have hs : t = t' := by
      cases t
      cases t'
      simpa using hus
    rw [hs] at hlt
    exact absurd hlt (List.lt_irrefl _)
  · exact absurd (formattedText_orders.lt t' t h' h hus) (List.lt_asymm hlt)

/-- The last microsecond of 1999 and the first one of 2000. -/
theorem formattedString_lt_year : ∃ t t', fromUnixTime 946684799 999999 = some t ∧ fromUnixTime 946684800 0 = some t' ∧
    t.toFormattedString true < t'.toFormattedString true := by
  refine ⟨⟨946684799999999, by decide⟩, ⟨946684800000000, by decide⟩, rfl, rfl, ?_⟩
  exact (formattedString_lt_iff ⟨by decide, by decide⟩ ⟨by decide, by decide⟩).2 (by decide)

end Timestamp

end Ycnt

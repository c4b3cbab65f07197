import Ycnt.Lib.Calendar
import Ycnt.Lib.Lexicographic
/-!
# Dates as texts

`fields` writes the month, the day and the time of day, each with two digits, with
separators between them. Behind a year of four digits such texts are in the order
of the seconds they name, and behind a text that tells the year they tell the second.
-/

namespace Calendar

open Numeral Lexicographic

theorem Date.day_within (d : Date) : Within 2 d.day := by
  have h := d.day_mem
  unfold daysInMonth at h
  unfold Within
  split at h <;> split at h <;> omega

namespace DateTime

def fields (daySep hourSep minuteSep : List UInt8) (tm : DateTime) : List UInt8 :=
  zeroPadded 2 tm.month ++ (zeroPadded 2 tm.day ++ (daySep ++ (zeroPadded 2 tm.hour ++ (hourSep ++
    (zeroPadded 2 tm.minute ++ (minuteSep ++ zeroPadded 2 tm.second))))))

/-- By all but the year. -/
def FieldsBefore (tm tm' : DateTime) : Prop :=
  tm.month < tm'.month ∨ (tm.month = tm'.month ∧ (tm.day < tm'.day ∨ (tm.day = tm'.day ∧
    (tm.hour < tm'.hour ∨ (tm.hour = tm'.hour ∧ (tm.minute < tm'.minute ∨ (tm.minute = tm'.minute ∧
      tm.second < tm'.second)))))))

variable (daySep hourSep minuteSep : List UInt8) {tm tm' : DateTime}

theorem within (tm : DateTime) : Within 2 tm.month ∧ Within 2 tm.hour ∧ Within 2 tm.minute ∧ Within 2 tm.second := by
  have hm := tm.month_mem
  have hh := tm.hour_mem
  have hmin := tm.minute_mem
  have hs := tm.second_mem
  unfold Within
  omega

theorem fields_length (tm : DateTime) :
    (fields daySep hourSep minuteSep tm).length = 10 + daySep.length + hourSep.length + minuteSep.length := by
  obtain ⟨hm, hh, hmin, hs⟩ := tm.within
  have htwo : ∀ {v}, Within 2 v → (zeroPadded 2 v).length = 2 := zeroPadded_length_of_within (by decide)
  simp only [fields, List.length_append, htwo hm, htwo tm.day_within, htwo hh, htwo hmin, htwo hs]
  omega

theorem fields_orders : Orders (fun _ => True) FieldsBefore (fields daySep hourSep minuteSep) := by
  have hfield : ∀ field : DateTime → Int, (∀ tm, Within 2 (field tm)) →
      Orders (fun _ => True) (fun tm tm' => field tm < field tm') fun tm => zeroPadded 2 (field tm) := fun field h =>
    ((zeroPadded_orders (by decide)).comap field).imp (fun tm _ => h tm) fun _ _ _ _ hr => hr
  have hm := hfield (·.month) fun tm => tm.within.1
  have hd := hfield (·.day) fun tm => tm.day_within
  have hh := hfield (·.hour) fun tm => tm.within.2.1
  have hmin := hfield (·.minute) fun tm => tm.within.2.2.1
  have hs := hfield (·.second) fun tm => tm.within.2.2.2
  have hall := hm.append (hd.append ((Orders.const _ daySep).append (hh.append ((Orders.const _ hourSep).append
    (hmin.append ((Orders.const _ minuteSep).append hs))))))
  refine hall.imp (fun _ h => h) fun tm tm' _ _ h => ?_
  unfold FieldsBefore at h
  rcases h with h | ⟨hm, h | ⟨hd, h | ⟨hh, h | ⟨hmin, h⟩⟩⟩⟩
  · exact .inl h
  · exact .inr ⟨by rw [hm], .inl h⟩
  · exact .inr ⟨by rw [hm], .inr ⟨by rw [hd], .inr ⟨rfl, .inl h⟩⟩⟩
  · exact .inr ⟨by rw [hm], .inr ⟨by rw [hd], .inr ⟨rfl, .inr ⟨by rw [hh], .inr ⟨rfl, .inl h⟩⟩⟩⟩⟩
  · exact .inr ⟨by rw [hm], .inr ⟨by rw [hd], .inr ⟨rfl, .inr ⟨by rw [hh], .inr ⟨rfl, .inr ⟨by rw [hmin], .inr ⟨rfl, h⟩⟩⟩⟩⟩⟩⟩

/-- With the year, the fields tell the second. -/
theorem toSeconds_eq_of_fields (hy : tm.year = tm'.year)
    (h : fields daySep hourSep minuteSep tm = fields daySep hourSep minuteSep tm') : tm.toSeconds = tm'.toSeconds := by
  have hord := fields_orders daySep hourSep minuteSep
  have hlt : ¬ FieldsBefore tm tm' := fun hb => List.lt_irrefl _ (h ▸ hord.lt tm tm' trivial trivial hb)
  have hgt : ¬ FieldsBefore tm' tm := fun hb => List.lt_irrefl _ (h ▸ hord.lt tm' tm trivial trivial hb)
  unfold FieldsBefore at hlt hgt
  obtain ⟨hm, hd, hh, hmin, hs⟩ : tm.month = tm'.month ∧ tm.day = tm'.day ∧ tm.hour = tm'.hour ∧
      tm.minute = tm'.minute ∧ tm.second = tm'.second := by omega
  rw [toSeconds, toSeconds, Date.toDays, Date.toDays, hy, hm, hd, hh, hmin, hs]

/-- Behind a year whose texts are in order. -/
theorem orders_of_year {P : Int → Prop} {yearText : Int → List UInt8} (hyear : Orders P (· < ·) yearText) :
    Orders (fun tm : DateTime => P tm.year) (fun tm tm' => tm.toSeconds < tm'.toSeconds)
      fun tm => yearText tm.year ++ fields daySep hourSep minuteSep tm := by
  have hfields := (fields_orders daySep hourSep minuteSep).imp (Q := fun tm : DateTime => P tm.year) (fun _ _ => trivial)
    fun _ _ _ _ h => h
  refine ((hyear.comap fun tm : DateTime => tm.year).append hfields).imp (fun _ h => h) fun tm tm' _ _ h => ?_
  rcases toSeconds_lt_iff.1 h with (hy | ⟨hy, hd⟩) | ⟨hdays, ht⟩
  · exact .inl hy
  · refine .inr ⟨congrArg yearText hy, ?_⟩
    rcases hd with hm | ⟨hm, hd⟩
    · exact .inl hm
    · exact .inr ⟨hm, .inl hd⟩
  · -- The same day, by year, month and day.
    have hnot : ¬ tm.toDate.Before tm'.toDate := fun hb => by
      have := Date.toDays_lt hb
      omega
    have hnot' : ¬ tm'.toDate.Before tm.toDate := fun hb => by
      have := Date.toDays_lt hb
      omega
    unfold Date.Before at hnot hnot'
    obtain ⟨hy, hm, hd⟩ : tm.year = tm'.year ∧ tm.month = tm'.month ∧ tm.day = tm'.day := by omega
    exact .inr ⟨congrArg yearText hy, .inr ⟨hm, .inr ⟨hd, ht⟩⟩⟩

end DateTime

end Calendar

import Ycnt.Base.File
import Ycnt.Lib.CalendarText
/-!
# The order of the names

Up to the year 9999 the name of a later file is the greater one, whatever the host
and the process are, so a listing by name puts the files into the order in which
they were written.
-/

namespace Ycnt

open Numeral Calendar Lexicographic

theorem dateText_eq (tm : DateTime) : dateText tm = ofInt tm.year ++ DateTime.fields [Char.toUInt8 '-'] [] [] tm := by
  simp [dateText, DateTime.fields]

theorem dateText_orders : Orders (fun tm : DateTime => 10 ^ 3 ≤ tm.year ∧ tm.year < 10 ^ (3 + 1))
    (fun tm tm' => tm.toSeconds < tm'.toSeconds) dateText :=
  funext dateText_eq ▸ DateTime.orders_of_year [Char.toUInt8 '-'] [] [] (ofInt_orders 3)

theorem fourDigits {time : Int} (h0 : 0 ≤ time) (h : time < 253402300800) :
    10 ^ 3 ≤ (DateTime.ofSeconds time).year ∧ (DateTime.ofSeconds time).year < 10 ^ (3 + 1) := by
  have hlo : 1970 ≤ (DateTime.ofSeconds time).year := (Date.year_le (Int.ediv_nonneg h0 (by decide))).1
  have hhi := DateTime.year_lt (d := .ofSeconds time) (by rw [DateTime.toSeconds_ofSeconds]; exact h)
  omega

/-- The date decides, before the host and the process id are compared. -/
theorem getLogFileName_lt {basename : Bytes} {a a' : Answers} (h0 : 0 ≤ a.time) (hlt : a.time < a'.time)
    (h : a'.time < 253402300800) : getLogFileName basename a < getLogFileName basename a' := by
  have hyear := fourDigits h0 (hlt.trans h)
  have hyear' := fourDigits (h0.trans hlt.le) h
  have hdate := dateText_orders.lt (.ofSeconds a.time) (.ofSeconds a'.time) hyear hyear' (by
    rwa [DateTime.toSeconds_ofSeconds, DateTime.toSeconds_ofSeconds])
  have hlen := dateText_orders.length (.ofSeconds a.time) (.ofSeconds a'.time) hyear hyear'
  simp only [getLogFileName, strftime, List.append_assoc, List.cons_append]
  refine List.append_left_lt (List.cons_lt_cons_iff.2 (.inr ⟨rfl, ?_⟩))
  exact append_lt_append hdate hlen _ _

namespace LogFile

variable {s : LogFile} {basename : Bytes} {before : Disk} {appended : List Bytes} {rollSize : Nat}
  {flushInterval checkEveryN : Int}

theorem Keeps.names_lt (h : Keeps basename before appended s) (hpos : ∀ o ∈ s.opened, 0 < o.lastRoll)
    (hlast : s.lastRoll < 253402300800) : (s.opened.map (·.filename)).Pairwise (· < ·) := by
  have hinc := h.increasing
  rw [List.pairwise_map] at hinc ⊢
  refine hinc.imp_of_mem fun {o o'} ho ho' hlt => ?_
  obtain ⟨a, hat, haf⟩ := h.named o ho
  obtain ⟨a', hat', haf'⟩ := h.named o' ho'
  have hle := h.le_lastRoll (List.mem_map_of_mem ho')
  have h0 := hpos o ho
  rw [haf, haf']
  exact getLogFileName_lt (by omega) (by omega) (by omega)

/-- The seconds by which files are named are positive. -/
def Positive (s : LogFile) : Prop := 0 < s.lastRoll ∧ ∀ o ∈ s.opened, 0 < o.lastRoll

theorem Positive.roll {s' : LogFile} {a : Answers} (h : s.Positive) (hs : SameFiles s s' ∨ Rolls a s s') : s'.Positive := by
  obtain ⟨hpos, hall⟩ := h
  rcases hs with hsame | hroll
  · unfold Positive
    rw [hsame.lastRoll_eq, hsame.opened_eq]
    exact ⟨hpos, hall⟩
  · have ha := hpos.trans hroll.lastRoll_lt
    refine ⟨hroll.lastRoll_eq ▸ ha, ?_⟩
    rw [hroll.opened_eq, List.forall_mem_append]
    exact ⟨hall, List.forall_mem_singleton.2 ha⟩

theorem step_positive {a : LogFileLabel} {s' : LogFile} (ha : Whole a) (hp : s.Positive) (h : s.step a = some s') :
    s'.Positive := by
  cases a with
  | append call =>
    obtain ⟨filename, s₁, -, hsame, hs'⟩ := append_files ha h
    have hwritten : Positive { s with disk := Function.update s.disk filename (s.disk filename ++ call.logline) } := hp
    exact (hwritten.roll (a := call.roll) (.inl hsame)).roll hs'
  | flush =>
    obtain ⟨file, -, rfl⟩ := Option.map_eq_some_iff.1 h
    exact hp
  | rollFile a => exact hp.roll (rollFile_files h)

/-- Up to the year 9999 the files are named in the order of their opening. Where no
file was there before, put together in the order of their names they are what was
appended. -/
theorem names_sort {a : Answers} {as : List LogFileLabel} {t : LogFile} (hpos : 0 < a.time)
    (h0 : create basename rollSize flushInterval checkEveryN before a = some s) (ha : ∀ a ∈ as, Whole a)
    (hr : (Rolling basename rollSize flushInterval checkEveryN).run s as = some t) (hlast : t.lastRoll < 253402300800) :
    (t.opened.map (·.filename)).Pairwise (· < ·) ∧
      ∀ names : List Bytes, names.Perm (t.opened.map (·.filename)) → names.Pairwise (· < ·) →
        (∀ name ∈ names, before name = []) → names.flatMap t.disk = (as.flatMap appendedBy).flatten := by
  have hk0 := create_keeps hpos h0
  have hk := run_keeps ha hk0 hr
  have hp0 : s.Positive := by
    obtain ⟨⟨s₁, b⟩, hroll, hs⟩ := Option.map_eq_some_iff.1 h0
    obtain rfl : s₁ = s := hs
    rcases rollFile_cases hroll with ⟨-, rfl⟩ | ⟨-, hroll⟩
    · exact absurd hk0.last (by rintro ⟨older, o, ho, -⟩; simp at ho)
    · refine ⟨hroll.lastRoll_eq ▸ hpos, fun o ho => ?_⟩
      rw [hroll.opened_eq, List.nil_append] at ho
      rw [List.mem_singleton.1 ho]
      exact hpos
  have hp := Lts.System.run_inv_of (fun _ _ _ => step_positive) ha hr hp0
  have hnames := hk.names_lt hp.2 hlast
  refine ⟨hnames, fun names hperm hsorted hnew => ?_⟩
  obtain rfl : names = t.opened.map (·.filename) :=
    hperm.eq_of_pairwise (fun _ _ _ _ hlt hgt => absurd hgt (List.lt_asymm hlt)) hsorted hnames
  obtain ⟨parts, hparts, hflat⟩ := hk.parts
  rw [List.nil_append] at hflat
  have hfiles := flatten_of_holds hparts fun o ho => hnew _ (List.mem_map_of_mem ho)
  rw [List.flatMap_map, List.flatMap_def, hfiles, hflat]

/-- Two files, the second by a host of a smaller name. -/
theorem names_sort_hosts : ∃ s t, create [97] 0 3 1 (fun _ => []) ⟨5, some [122], 1, true⟩ = some s ∧
    (Rolling [97] 0 3 1).run s [.append ⟨[1], fun _ => 1, 9, ⟨9, some [98], 1, true⟩⟩,
      .append ⟨[2], fun _ => 1, 9, ⟨9, some [98], 1, true⟩⟩] = some t ∧
    (t.opened.map (·.filename)).Pairwise (· < ·) := by
  have hall : ∀ logline time roll, Whole (.append ⟨logline, fun _ => 1, time, roll⟩) := fun _ _ _ =>
    AppendFile.writesAll_of_pos fun _ => Nat.one_pos
  have hsort : ∀ s t, create [97] 0 3 1 (fun _ => []) ⟨5, some [122], 1, true⟩ = some s →
      (Rolling [97] 0 3 1).run s [.append ⟨[1], fun _ => 1, 9, ⟨9, some [98], 1, true⟩⟩,
        .append ⟨[2], fun _ => 1, 9, ⟨9, some [98], 1, true⟩⟩] = some t → t.lastRoll < 253402300800 →
      (t.opened.map (·.filename)).Pairwise (· < ·) := by
    intro s t h0 hr hlast
    have hsort := fun ha => names_sort (by decide) h0 ha hr hlast
    exact (hsort (List.forall_mem_cons.2 ⟨hall _ _ _, List.forall_mem_cons.2 ⟨hall _ _ _, List.forall_mem_nil _⟩⟩)).1
  exact ⟨_, _, rfl, rfl, hsort _ _ rfl rfl (by decide)⟩

end LogFile

end Ycnt

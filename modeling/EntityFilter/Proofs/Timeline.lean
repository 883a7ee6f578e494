import Mathlib
import EntityFilter.Calendar.Instant

namespace EntityFilter

namespace Date

/-- The days of the years before the given one, from year one on. -/
def daysBefore (year : Int) : Int :=
  365 * (year - 1) + (year - 1) / 4 - (year - 1) / 100 + (year - 1) / 400

/-- The days of the first `n` months. -/
def daysOfMonths (year : Int) : Nat → Nat
  | 0 => 0
  | n + 1 => daysOfMonths year n + daysInMonth year (n + 1)

/-- The first of January of year one has number one. -/
def dayNumber (year : Int) (month day : Nat) : Int :=
  daysBefore year + daysOfMonths year (month - 1) + day

def number (d : Date) : Int := dayNumber d.year d.month d.day

example : dayNumber 1970 1 1 = 719163 := by decide

theorem ofFields?_eq_some {year : Int} {month day : Nat} {d : Date} :
    ofFields? year month day = some d ↔ d.year = year ∧ d.month = month ∧ d.day = day := by
  constructor
  · intro h
    simp only [ofFields?] at h
    split at h
    · cases h
      exact ⟨rfl, rfl, rfl⟩
    · cases h
  · rintro ⟨rfl, rfl, rfl⟩
    exact ofFields?_fields d

theorem number_of_ofFields? {year : Int} {month day : Nat} {d : Date}
    (h : ofFields? year month day = some d) : d.number = dayNumber year month day := by
  obtain ⟨rfl, rfl, rfl⟩ := ofFields?_eq_some.mp h
  rfl

theorem daysInMonth_pos (year : Int) (month : Nat) : 1 ≤ daysInMonth year month := by
  unfold daysInMonth
  split
  · split <;> decide
  all_goals decide

theorem daysOfMonths_succ (year : Int) {month : Nat} (h : 1 ≤ month) :
    daysOfMonths year month = daysOfMonths year (month - 1) + daysInMonth year month := by
  obtain ⟨n, rfl⟩ := Nat.exists_eq_add_of_le' h
  rfl

theorem daysOfMonths_mono (year : Int) : Monotone (daysOfMonths year) :=
  monotone_nat_of_le_succ fun _ => Nat.le_add_right _ _

/-- A year is as long as its months, and leap years have one day more. -/
theorem daysBefore_succ (year : Int) :
    daysBefore (year + 1) = daysBefore year + daysOfMonths year 12 := by
  simp only [daysBefore, daysOfMonths, daysInMonth, isLeapYear, Bool.and_eq_true, Bool.or_eq_true,
    beq_iff_eq, bne_iff_ne]
  split <;> omega

/-- One day on is one number on. -/
theorem number_next {d e : Date} (h : d.next? = some e) : e.number = d.number + 1 := by
  have ends := daysOfMonths_succ d.year d.month_ge
  have lasts := d.day_le
  unfold next? at h
  split at h
  · rw [number_of_ofFields? h, number, dayNumber, dayNumber]
    omega
  · split at h
    · rw [number_of_ofFields? h, number, dayNumber, dayNumber, Nat.add_sub_cancel]
      omega
    · rename_i full _
      have december : d.month = 12 := by have := d.month_le; omega
      have first : daysOfMonths (d.year + 1) (1 - 1) = 0 := rfl
      rw [number_of_ofFields? h, number, dayNumber, dayNumber, daysBefore_succ, first]
      rw [december] at ends lasts full ⊢
      omega

theorem number_previous {d e : Date} (h : d.previous? = some e) : e.number = d.number - 1 := by
  have starts := d.day_ge
  unfold previous? at h
  split at h
  · rw [number_of_ofFields? h, number, dayNumber, dayNumber]
    omega
  · split at h
    · rename_i later
      have ends := daysOfMonths_succ d.year (Nat.le_sub_one_of_lt later)
      rw [number_of_ofFields? h, number, dayNumber, dayNumber]
      omega
    · have january : d.month = 1 := by have := d.month_ge; omega
      have first : daysOfMonths d.year (1 - 1) = 0 := rfl
      have before := daysBefore_succ (d.year - 1)
      have ends : daysOfMonths (d.year - 1) 12 = daysOfMonths (d.year - 1) (12 - 1) + 31 := rfl
      rw [Int.sub_add_cancel] at before
      rw [number_of_ofFields? h, number, dayNumber, dayNumber, january, first]
      omega

theorem exists_next {d : Date} (h : d.year < 262142) : ∃ e, d.next? = some e := by
  have year := d.year_ge
  have month := d.month_ge
  unfold next?
  split
  · rename_i more
    have month' := d.month_le
    exact ⟨_, dif_pos (by omega)⟩
  · split
    · have short : 1 ≤ daysInMonth d.year (d.month + 1) := daysInMonth_pos ..
      exact ⟨_, dif_pos (by omega)⟩
    · have short : 1 ≤ daysInMonth (d.year + 1) 1 := daysInMonth_pos ..
      exact ⟨_, dif_pos (by omega)⟩

theorem exists_previous {d : Date} (h : -262143 < d.year) : ∃ e, d.previous? = some e := by
  have year := d.year_le
  have month := d.month_le
  have day := d.day_le
  unfold previous?
  split
  · have month' := d.month_ge
    exact ⟨_, dif_pos (by omega)⟩
  · split
    · have short : 1 ≤ daysInMonth d.year (d.month - 1) := daysInMonth_pos ..
      exact ⟨_, dif_pos (by omega)⟩
    · have long : daysInMonth (d.year - 1) 12 = 31 := rfl
      exact ⟨_, dif_pos (by omega)⟩

theorem daysBefore_lt {year later : Int} (h : year < later) :
    daysBefore (year + 1) ≤ daysBefore later := by
  unfold daysBefore
  omega

theorem number_gt (d : Date) : daysBefore d.year < d.number := by
  have := d.day_ge
  unfold number dayNumber
  omega

theorem number_le (d : Date) : d.number ≤ daysBefore (d.year + 1) := by
  have month := daysOfMonths_succ d.year d.month_ge
  have year : daysOfMonths d.year d.month ≤ daysOfMonths d.year 12 :=
    daysOfMonths_mono d.year d.month_le
  have day := d.day_le
  rw [daysBefore_succ]
  unfold number dayNumber
  omega

theorem year_eq_of_number_eq {d e : Date} (h : d.number = e.number) : d.year = e.year := by
  have dgt := d.number_gt
  have dle := d.number_le
  have egt := e.number_gt
  have ele := e.number_le
  rcases lt_trichotomy d.year e.year with less | same | greater
  · have := daysBefore_lt less
    omega
  · exact same
  · have := daysBefore_lt greater
    omega

theorem month_le_of_number_eq {d e : Date} (year : d.year = e.year) (h : d.number = e.number) :
    d.month ≤ e.month := by
  by_contra less
  have between : daysOfMonths e.year e.month ≤ daysOfMonths e.year (d.month - 1) :=
    daysOfMonths_mono e.year (by omega)
  have ends := daysOfMonths_succ e.year e.month_ge
  have day := e.day_le
  have first := d.day_ge
  unfold number dayNumber at h
  rw [year] at h
  omega

/-- No two dates have one number. -/
theorem number_injective : Function.Injective number := by
  intro d e h
  have year := year_eq_of_number_eq h
  have month := Nat.le_antisymm (month_le_of_number_eq year h)
    (month_le_of_number_eq year.symm h.symm)
  have day : d.day = e.day := by
    unfold number dayNumber at h
    rw [year, month] at h
    omega
  have same := ofFields?_eq_some.mpr ⟨year, month, day⟩
  rw [ofFields?_fields] at same
  exact (Option.some.inj same).symm

end Date

namespace Instant

/-- The seconds from the start of day zero. In a leap second they go on past the end of the second
before it, as the clock does. -/
def seconds (t : Instant) : ℚ :=
  t.date.number * 86400 + t.second + t.nanosecond / 10 ^ 9

/-- A second of the day, and not a leap second. -/
structure Regular (t : Instant) : Prop where
  second_lt : t.second < 86400
  nanosecond_lt : t.nanosecond < 10 ^ 9

/-- The date moves so that the seconds on the line change by the offset. -/
theorem atOffset?_eq_some {t u : Instant} {offset : Int} (low : -86400 ≤ offset)
    (high : offset ≤ 86400) (h : t.atOffset? offset = some u) :
    u.date.number * 86400 + u.second = t.date.number * 86400 + t.second - offset ∧
      u.nanosecond = t.nanosecond ∧ (t.second < 86400 → u.second < 86400) := by
  have day : (secondsPerDay : Int) = 86400 := rfl
  unfold atOffset? at h
  simp only at h
  split at h
  · obtain ⟨d, back, rfl⟩ := Option.map_eq_some_iff.mp h
    have number := Date.number_previous back
    refine ⟨?_, rfl, ?_⟩ <;> simp only <;> omega
  · split at h
    · cases h
      refine ⟨?_, rfl, ?_⟩ <;> simp only <;> omega
    · obtain ⟨d, on, rfl⟩ := Option.map_eq_some_iff.mp h
      have number := Date.number_next on
      refine ⟨?_, rfl, ?_⟩ <;> simp only <;> omega

/-- UTC is earlier than the clocks that are ahead of it. -/
theorem seconds_atOffset {t u : Instant} {offset : Int} (low : -86400 ≤ offset)
    (high : offset ≤ 86400) (h : t.atOffset? offset = some u) : u.seconds = t.seconds - offset := by
  obtain ⟨whole, part, _⟩ := atOffset?_eq_some low high h
  have whole : (u.date.number * 86400 + u.second : ℚ) = t.date.number * 86400 + t.second - offset :=
    mod_cast whole
  rw [seconds, seconds, part]
  linarith

theorem Regular.atOffset {t u : Instant} {offset : Int} (regular : t.Regular)
    (low : -86400 ≤ offset) (high : offset ≤ 86400) (h : t.atOffset? offset = some u) :
    u.Regular := by
  obtain ⟨_, part, second⟩ := atOffset?_eq_some low high h
  exact ⟨second regular.second_lt, part ▸ regular.nanosecond_lt⟩

/-- The line tells instants apart that are in no leap second. -/
theorem Regular.eq_of_seconds_eq {t u : Instant} (ht : t.Regular) (hu : u.Regular)
    (h : t.seconds = u.seconds) : t = u := by
  obtain ⟨td, ts, tn⟩ := t
  obtain ⟨ud, us, un⟩ := u
  obtain ⟨ts_lt, tn_lt⟩ := ht
  obtain ⟨us_lt, un_lt⟩ := hu
  -- Counted in nanoseconds, both are whole.
  have whole : (td.number * 86400 + ts) * 10 ^ 9 + tn = (ud.number * 86400 + us) * 10 ^ 9 + un := by
    have scaled : ((td.number * 86400 + ts) * 10 ^ 9 + tn : ℚ) =
        (ud.number * 86400 + us) * 10 ^ 9 + un := by
      simp only [seconds] at h
      linarith
    exact_mod_cast scaled
  simp only at ts_lt tn_lt us_lt un_lt
  have date : td = ud := Date.number_injective (by omega)
  rw [date] at whole ⊢
  have second : ts = us := by omega
  have nanosecond : tn = un := by omega
  rw [second, nanosecond]

/-- The instant stands at the place on the line, and outside of leap seconds no other does. -/
structure IsAt (t : Instant) (place : ℚ) : Prop where
  regular : t.Regular
  seconds_eq : t.seconds = place
  only : ∀ u : Instant, u.Regular → u.seconds = place → u = t

theorem Regular.isAt {t : Instant} (h : t.Regular) : t.IsAt t.seconds :=
  ⟨h, rfl, fun _ other same => other.eq_of_seconds_eq h same⟩

/-- Only the days at the ends of the calendar have none before or after them. -/
theorem exists_atOffset {t : Instant} (past : -262143 < t.date.year) (future : t.date.year < 262142)
    (offset : Int) : ∃ u, t.atOffset? offset = some u := by
  obtain ⟨before, back⟩ := Date.exists_previous past
  obtain ⟨after, on⟩ := Date.exists_next future
  unfold atOffset?
  simp only [back, on, Option.map_some]
  split
  · exact ⟨_, rfl⟩
  · split <;> exact ⟨_, rfl⟩

end Instant

end EntityFilter

import EntityFilter.Proofs.InstantReading

namespace EntityFilter.Calendar

open Text Numeral Fallible

/-- The last `width` digits of a number. -/
def digitsOf : Nat → Nat → List Char
  | 0, _ => []
  | width + 1, n => digitsOf width (n / 10) ++ [Nat.digitChar (n % 10)]

theorem length_digitsOf (width n : Nat) : (digitsOf width n).length = width := by
  induction width generalizing n with
  | zero => rfl
  | succ width ih => rw [digitsOf, List.length_append, ih, List.length_singleton]

theorem isDigit_digitChar {d : Nat} (h : d < 10) : (Nat.digitChar d).isDigit = true := by
  interval_cases d <;> decide

theorem digitValue_digitChar {d : Nat} (h : d < 10) : digitValue (Nat.digitChar d) = d := by
  interval_cases d <;> rfl

theorem isDigit_of_mem_digitsOf (width n : Nat) : ∀ c ∈ digitsOf width n, c.isDigit = true := by
  induction width generalizing n with
  | zero => exact fun c hc => absurd hc List.not_mem_nil
  | succ width ih =>
    intro c hc
    rcases List.mem_append.mp hc with front | last
    · exact ih _ c front
    · rw [List.mem_singleton.mp last]
      exact isDigit_digitChar (Nat.mod_lt n (by decide))

/-- Leading zeros do not count. -/
theorem natOfDigits_digitsOf {width n : Nat} (h : n < 10 ^ width) :
    natOfDigits (digitsOf width n) = n := by
  induction width generalizing n with
  | zero =>
    rw [pow_zero, Nat.lt_one_iff] at h
    rw [h]
    rfl
  | succ width ih =>
    have shorter : n / 10 < 10 ^ width := by
      rw [pow_succ] at h
      exact Nat.div_lt_of_lt_mul (by omega)
    have last : natOfDigits [Nat.digitChar (n % 10)] = n % 10 := by
      simp [natOfDigits, digitValue_digitChar (Nat.mod_lt n (by decide))]
    rw [digitsOf, natOfDigits_append, ih shorter, last, placeValue_eq, List.length_singleton, pow_one]
    omega

theorem digits_digitsOf {width n : Nat} (positive : width ≠ 0) (h : n < 10 ^ width) :
    Digits n (digitsOf width n) := by
  refine ⟨?_, isDigit_of_mem_digitsOf width n, natOfDigits_digitsOf h⟩
  intro empty
  exact positive (by rw [← length_digitsOf width n, empty, List.length_nil])

/-- UTC, or hours and minutes that the clock is ahead of it or behind. -/
inductive Zone where
  | utc
  | shifted (ahead colon : Bool) (hours minutes : Nat) (hours_le : hours ≤ 23)
    (minutes_le : minutes ≤ 59)

def Zone.chars : Zone → List Char
  | utc => ['Z']
  | shifted ahead colon hours minutes _ _ =>
    (if ahead then '+' else '-') ::
      (digitsOf 2 hours ++ ((if colon then [':'] else []) ++ digitsOf 2 minutes))

def Zone.offset : Zone → Int
  | utc => 0
  | shifted ahead _ hours minutes _ _ => Stamp.offsetOf (if ahead then '+' else '-') hours minutes

/-- Seconds with at most nine decimals. -/
structure Seconds where
  second : Nat
  decimals : List Char
  second_le : second ≤ 59
  digits : ∀ c ∈ decimals, c.isDigit = true
  length_le : decimals.length ≤ 9

def Seconds.chars (s : Seconds) : List Char :=
  ':' :: (digitsOf 2 s.second ++ if s.decimals = [] then [] else '.' :: s.decimals)

structure TimeOfDay where
  hour : Nat
  minute : Nat
  seconds : Option Seconds
  zone : Option Zone
  hour_le : hour ≤ 23
  minute_le : minute ≤ 59

namespace TimeOfDay

def clockChars (t : TimeOfDay) : List Char :=
  digitsOf 2 t.hour ++ ':' :: (digitsOf 2 t.minute ++ (t.seconds.map Seconds.chars).getD [])

def zoneChars (t : TimeOfDay) : List Char := (t.zone.map Zone.chars).getD []

def second (t : TimeOfDay) : Nat := (t.seconds.map Seconds.second).getD 0

def decimals (t : TimeOfDay) : List Char := (t.seconds.map Seconds.decimals).getD []

def offset (t : TimeOfDay) : Int := (t.zone.map Zone.offset).getD 0

end TimeOfDay

/-- A date with a year of four digits and, if it is more than a date, a time of day. -/
structure Moment where
  date : Date
  time : Option TimeOfDay
  year_ge : 0 ≤ date.year
  year_le : date.year ≤ 9999

namespace Moment

def dateChars (m : Moment) : List Char :=
  digitsOf 4 m.date.year.toNat ++ '-' :: (digitsOf 2 m.date.month ++ '-' :: digitsOf 2 m.date.day)

def chars (m : Moment) : List Char :=
  m.dateChars ++ (m.time.map fun t => 'T' :: (t.clockChars ++ t.zoneChars)).getD []

def stamp (m : Moment) : Stamp :=
  match m.time with
  | none => .midnight m.date.year m.date.month m.date.day
  | some t =>
    ⟨m.date.year, m.date.month, m.date.day, t.hour, t.minute, t.second, t.decimals, t.offset⟩

end Moment

section

variable {n : Nat}

theorem digits_two (h : n ≤ 99) : Digits n (digitsOf 2 n) :=
  digits_digitsOf (by decide) (Nat.lt_succ_of_le h)

theorem fieldText_two (h : n ≤ 99) : Stamp.FieldText n (digitsOf 2 n) := .of_digits (digits_two h)

end

theorem Zone.writes (z : Zone) : Stamp.ZoneText z.offset z.chars := by
  cases z with
  | utc => exact .utc (.inl rfl)
  | shifted ahead colon hours minutes hours_le minutes_le =>
    have blank : ∀ c ∈ ([] : List Char), isBlank c = true := fun _ hc => absurd hc List.not_mem_nil
    refine .shifted blank ?_ (length_digitsOf 2 hours) (digits_two (by omega)) ?_
      (digits_two (by omega))
    · cases ahead
      · exact .inr (.inl rfl)
      · exact .inl rfl
    · cases colon
      · simp
      · simp [Stamp.isMark]

theorem TimeOfDay.zone_writes (t : TimeOfDay) : Stamp.ZoneText t.offset t.zoneChars := by
  rw [offset, zoneChars]
  cases t.zone with
  | none => exact .none
  | some z => exact z.writes

theorem Seconds.writes (s : Seconds) : Stamp.SecondsText s.second s.decimals s.chars := by
  refine .seconds (fieldText_two (s.second_le.trans (by decide))) ?_
  split
  · rename_i empty
    rw [empty]
    exact .none
  · rename_i nonempty
    exact .point nonempty s.digits

theorem TimeOfDay.clock_writes (t : TimeOfDay) :
    Stamp.ClockText t.hour t.minute t.second t.decimals t.clockChars := by
  refine ⟨fieldText_two (t.hour_le.trans (by decide)), fieldText_two (t.minute_le.trans (by decide)),
    ?_, rfl⟩
  rw [second, decimals]
  cases t.seconds with
  | none => exact .none
  | some s => exact s.writes

namespace Moment

theorem year_toNat (m : Moment) : (m.date.year.toNat : Int) = m.date.year :=
  Int.toNat_of_nonneg m.year_ge

theorem year_digits (m : Moment) : Digits m.date.year.toNat (digitsOf 4 m.date.year.toNat) := by
  have le := m.year_le
  exact digits_digitsOf (by decide) (by omega)

theorem month_le (m : Moment) : m.date.month ≤ 99 := m.date.month_le.trans (by decide)

theorem day_le (m : Moment) : m.date.day ≤ 31 := by
  refine m.date.day_le.trans ?_
  unfold daysInMonth
  split
  · split <;> decide
  all_goals decide

theorem date_writes (m : Moment) :
    Stamp.DateText m.date.year m.date.month m.date.day m.dateChars :=
  ⟨⟨fun _ hc => absurd hc List.not_mem_nil, .none, m.year_digits, m.year_toNat.symm, rfl⟩,
    fieldText_two m.month_le, fieldText_two (m.day_le.trans (by decide)), rfl⟩

/-- Each text is that of its fields. -/
theorem writes (m : Moment) : m.stamp.Writes m.chars := by
  have date := m.date_writes
  rw [stamp, chars]
  cases m.time with
  | none => exact .date (by rwa [Option.map_none, Option.getD_none, List.append_nil]) rfl
  | some t => exact .time date (.inl rfl) t.clock_writes t.zone_writes rfl

end Moment

section

variable {n low high : Nat} {ds rest : List Char}

theorem literal_cons (c : Char) (rest : List Char) : literal c (c :: rest) = .ok ((), rest) :=
  literal_eq_ok.mpr rfl

theorem digits_append (h : Digits n ds) (rest : List Char) :
    digits (some ds.length) (ds ++ rest) = .ok (n, rest) := by
  obtain ⟨c, more, rfl⟩ := List.exists_cons_of_ne_nil h.nonempty
  have front : ((c :: more) ++ rest).take (c :: more).length = c :: more := List.take_left
  have whole : (c :: more).takeWhile Char.isDigit = c :: more :=
    List.takeWhile_eq_self_iff.mpr h.digits
  rw [List.cons_append] at front ⊢
  simp only [digits, Option.elim_some, front, whole, if_neg (List.cons_ne_nil c more), h.value]
  rw [← List.cons_append, List.drop_left]

theorem trimBlanks_digits (h : Digits n ds) (rest : List Char) :
    trimBlanks (ds ++ rest) = ds ++ rest := by
  obtain ⟨c, more, rfl⟩ := List.exists_cons_of_ne_nil h.nonempty
  have first := Stamp.blank_of_digit (h.digits c List.mem_cons_self)
  exact trimBlanks_cons_of_not_blank _ (by rw [first]; decide)

theorem field_append (small : n ≤ 99) (above : low ≤ n) (below : n ≤ high) (rest : List Char) :
    field low high (digitsOf 2 n ++ rest) = .ok (n, rest) := by
  have two := digits_two small
  have read := digits_append two rest
  rw [length_digitsOf] at read
  rw [field, trimBlanks_digits two, read]
  exact if_pos ⟨above, below⟩

theorem year_append (h : Digits n ds) (four : ds.length = 4) (rest : List Char) (small : n ≤ 9999) :
    year (ds ++ rest) = .ok ((n : Int), rest) := by
  have read := digits_append h rest
  have half : 1 <<< (32 - 1) = 2147483648 := rfl
  have fits : fitsWord 32 (n : Int) = true := by
    simp only [fitsWord, half, Bool.and_eq_true, decide_eq_true_eq]
    omega
  rw [four] at read
  simp only [year, trimBlanks_digits h]
  split
  · rename_i minus
    exact absurd (h.head rest '-' (by rw [minus]; rfl)) (by decide)
  · rename_i plus
    exact absurd (h.head rest '+' (by rw [plus]; rfl)) (by decide)
  · simp only [read, Except.map, bind, Except.bind, fits, if_true]

theorem fraction_append (nonempty : ds ≠ []) (all : ∀ c ∈ ds, c.isDigit = true)
    (stop : Stamp.NoDigit rest) : fraction ('.' :: (ds ++ rest)) = .ok (nanosecondsOf ds, rest) := by
  have behind : rest.takeWhile Char.isDigit = [] := by
    cases rest with
    | nil => rfl
    | cons c rest => simp [stop c rfl]
  have front : (ds ++ rest).takeWhile Char.isDigit = ds := by
    rw [List.takeWhile_append_of_pos all, behind, List.append_nil]
  simp only [fraction, front, if_neg nonempty, List.drop_left]

theorem fraction_none (stop : Stamp.EndsClock rest) : fraction rest = .ok (0, rest) := by
  unfold fraction
  split
  · exact absurd rfl (stop '.' rfl).2.2
  · rfl

end

namespace Moment

theorem dateFields_append (m : Moment) (rest : List Char) :
    dateFields (m.dateChars ++ rest) = .ok ((m.date.year, m.date.month, m.date.day), rest) := by
  have year := year_append m.year_digits (length_digitsOf ..)
  have month := field_append m.month_le m.date.month_ge m.date.month_le
  have day := field_append (m.day_le.trans (by decide)) m.date.day_ge m.day_le
  have le := m.year_le
  simp only [dateChars, List.append_assoc, List.cons_append, dateFields]
  rw [year _ (by omega)]
  simp only [bind, Except.bind, literal_cons, month, day, year_toNat]

end Moment

namespace TimeOfDay

theorem minutes_append (t : TimeOfDay) (rest : List Char) :
    minutes (digitsOf 2 t.hour ++ ':' :: (digitsOf 2 t.minute ++ rest)) =
      .ok (⟨t.hour, t.minute, 0, 0⟩, rest) := by
  have hour := field_append (t.hour_le.trans (by decide)) (Nat.zero_le _) t.hour_le
  have minute := field_append (t.minute_le.trans (by decide)) (Nat.zero_le _) t.minute_le
  simp only [minutes, bind, Except.bind, hour, literal_cons, minute]

/-- A clock with seconds is read as its fields, with or without decimals. -/
theorem seconds_append (t : TimeOfDay) (s : Seconds) (rest : List Char) (stop : Stamp.EndsClock rest) :
    Calendar.seconds (digitsOf 2 t.hour ++ ':' :: (digitsOf 2 t.minute ++ (s.chars ++ rest))) =
      .ok (⟨t.hour, t.minute, s.second, nanosecondsOf s.decimals⟩, rest) := by
  have second := field_append (s.second_le.trans (by decide)) (Nat.zero_le _)
    (s.second_le.trans (by decide : 59 ≤ 60))
  have fraction : fraction ((if s.decimals = [] then [] else '.' :: s.decimals) ++ rest) =
      .ok (nanosecondsOf s.decimals, rest) := by
    split
    · rename_i empty
      rw [List.nil_append, fraction_none stop, empty]
      rfl
    · rename_i nonempty
      exact fraction_append nonempty s.digits fun c hc => (stop c hc).1
  simp only [Calendar.seconds, bind, Except.bind, minutes_append, Seconds.chars, List.cons_append,
    List.append_assoc, literal_cons, second, fraction]

def clock (t : TimeOfDay) : Clock := ⟨t.hour, t.minute, t.second, nanosecondsOf t.decimals⟩

/-- One of the two loose clocks reads the time of day. -/
theorem clock_append (t : TimeOfDay) {rest : List Char} (stop : Stamp.EndsClock rest) :
    ∃ read, (read = Calendar.seconds ∨ read = minutes) ∧
      read (t.clockChars ++ rest) = .ok (t.clock, rest) := by
  simp only [clockChars, clock, second, decimals, List.append_assoc, List.cons_append]
  cases t.seconds with
  | none =>
    have nothing : nanosecondsOf [] = 0 := by simp [nanosecondsOf, natOfDigits]
    refine ⟨minutes, .inr rfl, ?_⟩
    simp only [Option.map_none, Option.getD_none, List.nil_append, nothing]
    exact t.minutes_append rest
  | some s => exact ⟨Calendar.seconds, .inl rfl, t.seconds_append s rest stop⟩

end TimeOfDay

theorem exactly_append {n low high : Nat} (small : n ≤ 99) (above : low ≤ n) (below : n ≤ high)
    (rest : List Char) : exactly 2 low high (digitsOf 2 n ++ rest) = .ok (n, rest) := by
  have two := digits_two small
  have length := length_digitsOf 2 n
  have front : (digitsOf 2 n ++ rest).take 2 = digitsOf 2 n :=
    List.take_left' length
  have behind : (digitsOf 2 n ++ rest).drop 2 = rest :=
    List.drop_left' length
  have all : (digitsOf 2 n).all Char.isDigit = true := List.all_eq_true.mpr two.digits
  simp only [exactly, front, behind, length, all, two.value, above, below, and_self, if_true]

/-- An offset is read whatever mark may stand between its hours and minutes. -/
theorem signedOffset_append {mark : Reader Unit} {sign : Char} {hours minutes : Nat}
    {marks : List Char} (signed : Stamp.IsOffsetSign sign) (hours_le : hours ≤ 23)
    (minutes_le : minutes ≤ 59)
    (marked : mark (marks ++ digitsOf 2 minutes) = .ok ((), digitsOf 2 minutes)) :
    signedOffset mark (sign :: (digitsOf 2 hours ++ (marks ++ digitsOf 2 minutes))) =
      .ok (Stamp.offsetOf sign hours minutes, []) := by
  have hour := exactly_append (hours_le.trans (by decide)) (Nat.zero_le _)
    (hours_le.trans (by decide : 23 ≤ 99))
  have minute := exactly_append (minutes_le.trans (by decide)) (Nat.zero_le _) minutes_le []
  rw [List.append_nil] at minute
  rw [Stamp.IsOffsetSign] at signed
  simp only [signedOffset, if_pos signed, bind, Except.bind, hour, marked, minute, Stamp.offsetOf]

theorem dropWhile_isMark (colon : Bool) {n : Nat} (h : n ≤ 99) :
    ((if colon then [':'] else []) ++ digitsOf 2 n).dropWhile (fun c => c == ':' || isBlank c) =
      digitsOf 2 n := by
  have two := digits_two h
  have stop : (digitsOf 2 n).dropWhile Stamp.isMark = digitsOf 2 n := by
    obtain ⟨c, more, same⟩ := List.exists_cons_of_ne_nil two.nonempty
    have first := Stamp.mark_of_digit (two.digits c (by simp [same]))
    rw [same]
    exact List.dropWhile_cons_of_neg (by rw [first]; decide)
  cases colon <;> exact stop

theorem looseOffset_shifted {ahead colon : Bool} {hours minutes : Nat} (hours_le : hours ≤ 23)
    (minutes_le : minutes ≤ 59) :
    looseOffset (Zone.shifted ahead colon hours minutes hours_le minutes_le).chars =
      .ok ((Zone.shifted ahead colon hours minutes hours_le minutes_le).offset, []) := by
  have signed : Stamp.IsOffsetSign (if ahead then '+' else '-') := by
    cases ahead
    · exact .inr (.inl rfl)
    · exact .inl rfl
  have day : ((Instant.secondsPerDay : Nat) : Int) = 86400 := rfl
  have size : -86399 ≤ Stamp.offsetOf (if ahead then '+' else '-') hours minutes ∧
      Stamp.offsetOf (if ahead then '+' else '-') hours minutes ≤ 86399 := by
    simp only [Stamp.offsetOf]
    split <;> omega
  have trimmed := trimBlanks_cons_of_not_blank
    (digitsOf 2 hours ++ ((if colon then [':'] else []) ++ digitsOf 2 minutes))
    (c := if ahead then '+' else '-') (by rw [Stamp.not_blank_of_isOffsetSign signed]; decide)
  simp only [Zone.chars, Zone.offset, looseOffset, trimmed]
  rw [within_eq_ok]
  refine ⟨signedOffset_append signed hours_le minutes_le ?_, by omega⟩
  rw [dropWhile_isMark colon (minutes_le.trans (by decide))]

namespace Moment

/-- The loose form reads a date-time if it can read the clock and the zone. -/
theorem looseForm_append (m : Moment) {t : TimeOfDay} {read : Reader Clock} {offset : Reader Int}
    {z : List Char} {x : Int} (clock : read (t.clockChars ++ z) = .ok (t.clock, z))
    (zone : offset z = .ok (x, [])) :
    looseForm read offset (m.dateChars ++ 'T' :: (t.clockChars ++ z)) =
      .ok (instantOf? (m.date.year, m.date.month, m.date.day) t.clock x) := by
  simp only [looseForm, bind, Except.bind, m.dateFields_append, literal_cons, clock, zone, finished]

/-- Every offset leads from a date of four digits to another date. -/
theorem exists_instant (m : Moment) (clock : Clock) (offset : Int) :
    ∃ u, instantOf? (m.date.year, m.date.month, m.date.day) clock offset = some u := by
  have low := m.year_ge
  have high := m.year_le
  have shown := Instant.exists_atOffset (t := clock.on m.date)
    (by simp only [Clock.on]; omega) (by simp only [Clock.on]; omega) offset
  simpa only [instantOf?, Date.ofFields?_fields, Option.bind_some] using shown

theorem withoutZone_utc (cs : List Char) : withoutZone (cs ++ ['Z']) = cs := by
  simp [withoutZone]

theorem withoutZone_none {cs : List Char} (h : 'Z' ∉ cs) : withoutZone cs = cs := by
  rw [withoutZone, if_neg]
  exact fun last => h (List.mem_of_getLast? last)

/-- The letter of UTC stands nowhere but at the end. -/
theorem zone_not_mem (m : Moment) (t : TimeOfDay) : 'Z' ∉ m.dateChars ++ 'T' :: t.clockChars := by
  have digits (width n : Nat) : 'Z' ∉ digitsOf width n := fun mem =>
    absurd (isDigit_of_mem_digitsOf width n 'Z' mem) (by decide)
  have seconds : 'Z' ∉ (t.seconds.map Seconds.chars).getD [] := by
    cases t.seconds with
    | none => exact List.not_mem_nil
    | some s =>
      have decimals : 'Z' ∉ s.decimals := fun mem => absurd (s.digits 'Z' mem) (by decide)
      simp only [Option.map_some, Option.getD_some, Seconds.chars]
      split <;> simp [digits, decimals]
  simp [dateChars, TimeOfDay.clockChars, digits, seconds]

theorem withoutZone_chars (m : Moment) {t : TimeOfDay} (h : t.zone = none ∨ t.zone = some .utc) :
    withoutZone (m.dateChars ++ 'T' :: (t.clockChars ++ t.zoneChars)) =
      m.dateChars ++ 'T' :: t.clockChars := by
  have front : m.dateChars ++ 'T' :: (t.clockChars ++ t.zoneChars) =
      (m.dateChars ++ 'T' :: t.clockChars) ++ t.zoneChars := by simp
  rw [front, TimeOfDay.zoneChars]
  rcases h with h | h
  · rw [h, Option.map_none, Option.getD_none, List.append_nil, withoutZone_none (m.zone_not_mem t)]
  · rw [h, Option.map_some, Option.getD_some, Zone.chars, withoutZone_utc]

/-- One form at least has an instant for the text. -/
theorem exists_of_form {cs : List Char} {t : Instant} (form : Except DateFault (Option Instant))
    (mem : form ∈ [strictForm cs, looseForm seconds looseOffset cs, looseForm minutes looseOffset cs,
      looseForm seconds noOffset (withoutZone cs), looseForm minutes noOffset (withoutZone cs),
      (Calendar.date cs).map fun d => some (.midnight d)])
    (h : form = .ok (some t)) : ∃ u, readInstant? cs = some u := by
  rw [← Option.isSome_iff_exists, readInstant?, List.findSome?_isSome_iff]
  exact ⟨form, mem, by rw [h]; rfl⟩

theorem readInstant?_date (m : Moment) : ∃ t, readInstant? m.dateChars = some t := by
  have fields := m.dateFields_append []
  rw [List.append_nil] at fields
  have read : Calendar.date m.dateChars = .ok m.date := by
    simp only [Calendar.date, bind, Except.bind, fields, finished, Date.ofFields?_fields,
      Option.map_some, Option.getD_some]
  exact exists_of_form ((Calendar.date m.dateChars).map fun d => some (.midnight d)) (by simp)
    (by rw [read]; rfl)

/-- Some form accepts a date-time: those with an offset the forms that ask for one, those without it
the forms that take off a final `Z`. -/
theorem readInstant?_time (m : Moment) (t : TimeOfDay) :
    ∃ u, readInstant? (m.dateChars ++ 'T' :: (t.clockChars ++ t.zoneChars)) = some u := by
  have withoutOffset (h : t.zone = none ∨ t.zone = some .utc) :
      ∃ u, readInstant? (m.dateChars ++ 'T' :: (t.clockChars ++ t.zoneChars)) = some u := by
    obtain ⟨u, instant⟩ := m.exists_instant t.clock 0
    have stop : Stamp.EndsClock [] := fun c hc => by cases hc
    have zone : noOffset [] = .ok (0, []) := rfl
    obtain ⟨read, loose, clock⟩ := t.clock_append stop
    have form := m.looseForm_append clock zone
    rw [List.append_nil, ← m.withoutZone_chars h, instant] at form
    refine exists_of_form _ ?_ form
    rcases loose with rfl | rfl <;> simp
  cases hz : t.zone with
  | none => exact withoutOffset (.inl hz)
  | some z =>
    cases z with
    | utc => exact withoutOffset (.inr hz)
    | shifted ahead colon hours minutes hours_le minutes_le =>
      have zone : looseOffset t.zoneChars = .ok (t.offset, []) := by
        rw [TimeOfDay.zoneChars, TimeOfDay.offset, hz]
        exact looseOffset_shifted hours_le minutes_le
      obtain ⟨u, instant⟩ := m.exists_instant t.clock t.offset
      obtain ⟨read, loose, clock⟩ := t.clock_append t.zone_writes.endsClock
      have form := m.looseForm_append clock zone
      rw [instant] at form
      refine exists_of_form _ ?_ form
      rcases loose with rfl | rfl <;> simp

/-- Some form of instants accepts every date and date-time in the digits of ISO 8601. -/
theorem readInstant?_accepts (m : Moment) : ∃ t, readInstant? m.chars = some t := by
  rw [chars]
  cases m.time with
  | none => simpa using m.readInstant?_date
  | some t => simpa using m.readInstant?_time t

theorem second_le (m : Moment) : m.stamp.second ≤ 59 := by
  rw [stamp]
  split
  · exact Nat.zero_le _
  · rename_i t _
    simp only [TimeOfDay.second]
    cases t.seconds with
    | none => exact Nat.zero_le _
    | some s => exact s.second_le

theorem decimals_length (m : Moment) : m.stamp.decimals.length ≤ 9 := by
  rw [stamp]
  split
  · exact Nat.zero_le _
  · rename_i t _
    simp only [TimeOfDay.decimals]
    cases t.seconds with
    | none => exact Nat.zero_le _
    | some s => exact s.length_le

end Moment

/-- Nothing is dropped of nine decimals. -/
theorem Source.exact {t : Instant} {cs : List Char} {s : Stamp} (h : Source t cs s)
    (short : s.decimals.length ≤ 9) : t.seconds = s.seconds := by
  obtain ⟨k, nine⟩ := Nat.exists_eq_add_of_le short
  have whole : s.seconds * 10 ^ 9 = (((Date.dayNumber s.year s.month s.day * 86400 +
      (s.hour * 3600 + s.minute * 60 + s.second) - s.offset) * 10 ^ 9 +
      natOfDigits s.decimals * 10 ^ k : Int) : ℚ) := by
    have fraction : fractionOf s.decimals * 10 ^ 9 = natOfDigits s.decimals * 10 ^ k := by
      rw [fractionOf_eq h.writes.digits, nine, pow_add]
      field_simp
    push_cast
    rw [← fraction, Stamp.seconds]
    ring
  rw [h.seconds_eq, whole, Int.floor_intCast, ← whole]
  field_simp

/-- A moment is read as the instant of its fields, as far from UTC as its clock. -/
theorem Moment.readInstant?_eq (m : Moment) :
    ∃ t : Instant, readInstant? m.chars = some t ∧ t.IsAt m.stamp.seconds := by
  obtain ⟨t, read⟩ := m.readInstant?_accepts
  obtain ⟨s, source⟩ := readInstant?_source read
  obtain rfl := source.writes.unique m.writes
  exact ⟨t, read, source.exact m.decimals_length ▸ (source.regular m.second_le).isAt⟩

end EntityFilter.Calendar

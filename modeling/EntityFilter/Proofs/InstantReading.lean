import EntityFilter.Proofs.Fallible
import EntityFilter.Proofs.Stamps

namespace EntityFilter.Calendar

open Text Numeral Fallible Stamp

/-- Where a reader succeeds, the text in front of what it leaves is one of what it has found. -/
def Finds {α : Type} (read : Reader α) (text : α → List Char → Prop) : Prop :=
  ∀ ⦃cs x rest⦄, read cs = .ok (x, rest) → ∃ taken, cs = taken ++ rest ∧ text x taken

theorem Finds.mono {α : Type} {read : Reader α} {text other : α → List Char → Prop}
    (h : Finds read text) (weaker : ∀ x cs, text x cs → other x cs) : Finds read other := by
  intro cs x rest found
  obtain ⟨taken, parts, is⟩ := h found
  exact ⟨taken, parts, weaker x taken is⟩

theorem literal_eq_ok {c : Char} {cs rest : List Char} :
    literal c cs = .ok ((), rest) ↔ cs = c :: rest := by
  cases cs with
  | nil => simp [literal]
  | cons d cs =>
    by_cases same : d = c
    · simp [literal, same]
    · simp [literal, same]

/-- As many digits are taken as a field may have, so no more is known of what follows. -/
theorem finds_digits (width : Option Nat) : Finds (digits width) Digits := by
  intro cs n rest h
  cases cs with
  | nil => cases h
  | cons c cs =>
    simp only [digits] at h
    split at h
    · cases h
    · rename_i nonempty
      have front : (width.elim (c :: cs) (c :: cs).take).takeWhile Char.isDigit <+: c :: cs := by
        refine (List.takeWhile_prefix _).trans ?_
        cases width with
        | none => exact List.prefix_rfl
        | some n => exact List.take_prefix n _
      have all := List.all_takeWhile (p := Char.isDigit) (l := width.elim (c :: cs) (c :: cs).take)
      generalize (width.elim (c :: cs) (c :: cs).take).takeWhile Char.isDigit = ds at *
      cases h
      refine ⟨ds, ?_, nonempty, fun d hd => List.all_eq_true.mp all d hd, rfl⟩
      obtain ⟨rest, parts⟩ := front
      rw [← parts, List.drop_left]

theorem exists_blanks (cs : List Char) :
    ∃ front, (∀ c ∈ front, isBlank c = true) ∧ cs = front ++ trimBlanks cs :=
  ⟨cs.takeWhile isBlank, fun _ hc => List.mem_takeWhile_imp hc,
    List.takeWhile_append_dropWhile.symm⟩

theorem finds_field (low high : Nat) :
    Finds (field low high) fun n cs => FieldText n cs ∧ low ≤ n ∧ n ≤ high := by
  intro cs n rest h
  obtain ⟨⟨m, behind⟩, read, h⟩ := bind_eq_ok.mp h
  obtain ⟨taken, parts, digits⟩ := finds_digits _ read
  obtain ⟨front, blank, trimmed⟩ := exists_blanks cs
  simp only at h
  split at h
  · rename_i within
    cases h
    refine ⟨front ++ taken, ?_, ⟨blank, digits, rfl⟩, within⟩
    rw [List.append_assoc, ← parts, ← trimmed]
  · cases h

theorem yearText_of {cs sign ds rest : List Char} {negative : Bool} {n : Nat} {y : Int}
    (signed : SignText negative sign) (digits : Digits n ds)
    (value : y = if negative then -(n : Int) else n) (parts : trimBlanks cs = sign ++ (ds ++ rest)) :
    ∃ taken, cs = taken ++ rest ∧ YearText y taken := by
  obtain ⟨front, blank, trimmed⟩ := exists_blanks cs
  refine ⟨front ++ (sign ++ ds), ?_, blank, signed, digits, value, rfl⟩
  rw [List.append_assoc, List.append_assoc, ← parts, ← trimmed]

/-- The digits of a year, whatever its sign makes of them. -/
theorem digits_of_checked {f : Nat → Int} {width : Option Nat} {cs rest : List Char} {y : Int}
    (h : ((digits width cs).map (fun x => (f x.1, x.2)) >>= fun x =>
      if fitsWord 32 x.1 then .ok (x.1, x.2) else .error .range) = .ok (y, rest)) :
    ∃ n ds, Digits n ds ∧ cs = ds ++ rest ∧ y = f n := by
  obtain ⟨x, mapped, checked⟩ := bind_eq_ok.mp h
  obtain ⟨⟨n, left⟩, read, rfl⟩ := map_eq_ok.mp mapped
  obtain ⟨ds, parts, digits⟩ := finds_digits width read
  split at checked
  · cases checked
    exact ⟨n, ds, digits, parts, rfl⟩
  · cases checked

theorem finds_year : Finds year YearText := by
  intro cs y rest h
  simp only [year] at h
  split at h
  · rename_i signed
    obtain ⟨n, ds, digits, rfl, value⟩ := digits_of_checked (f := fun n => -(n : Int)) h
    exact yearText_of .minus digits value signed
  · rename_i signed
    obtain ⟨n, ds, digits, rfl, value⟩ := digits_of_checked h
    exact yearText_of .plus digits value signed
  · obtain ⟨n, ds, digits, parts, value⟩ := digits_of_checked h
    exact yearText_of .none digits value parts

theorem finds_dateFields :
    Finds dateFields fun fields cs => DateText fields.1 fields.2.1 fields.2.2 cs := by
  intro cs fields rest h
  obtain ⟨⟨y, afterYear⟩, year, h⟩ := bind_eq_ok.mp h
  obtain ⟨⟨⟨⟩, dashed⟩, dash, h⟩ := bind_eq_ok.mp h
  obtain ⟨⟨m, afterMonth⟩, month, h⟩ := bind_eq_ok.mp h
  obtain ⟨⟨⟨⟩, dashed'⟩, dash', h⟩ := bind_eq_ok.mp h
  obtain ⟨⟨d, afterDay⟩, day, h⟩ := bind_eq_ok.mp h
  cases h
  obtain ⟨ys, rfl, years⟩ := finds_year year
  obtain ⟨ms, rfl, months, -⟩ := finds_field 1 12 month
  obtain ⟨ds, rfl, days, -⟩ := finds_field 1 31 day
  rw [literal_eq_ok] at dash dash'
  subst dash dash'
  exact ⟨ys ++ '-' :: (ms ++ '-' :: ds), by simp, years, months, days, rfl⟩

theorem finds_exactly (width low high : Nat) : Finds (exactly (width + 1) low high) fun n cs =>
    Digits n cs ∧ cs.length = width + 1 ∧ low ≤ n ∧ n ≤ high := by
  intro cs n rest h
  simp only [exactly] at h
  split at h
  · rename_i shape
    split at h
    · rename_i within
      cases h
      have nonempty : cs.take (width + 1) ≠ [] := by
        intro empty
        rw [empty] at shape
        exact absurd shape.1.symm (Nat.succ_ne_zero width)
      exact ⟨cs.take (width + 1), (List.take_append_drop (width + 1) cs).symm,
        ⟨nonempty, List.all_eq_true.mp shape.2, rfl⟩, shape.1, within⟩
    · cases h
  · cases h

theorem Stamp.FieldText.of_digits {n : Nat} {cs : List Char} (h : Digits n cs) : FieldText n cs :=
  ⟨fun _ hc => absurd hc List.not_mem_nil, h, (List.nil_append cs).symm⟩

/-- An hour and a minute within their bounds, and the text that they are read from. -/
inductive MinutesOf (hour minute : Nat) (cs : List Char) : Prop where
  | intro {h m : List Char} (hours : FieldText hour h) (minutes : FieldText minute m)
    (hour_le : hour ≤ 23) (minute_le : minute ≤ 59) (parts : cs = h ++ ':' :: m)

/-- All fields of a clock within their bounds, and the text that they are read from. -/
structure ClockOf (clock : Clock) (ds cs : List Char) : Prop where
  text : ClockText clock.hour clock.minute clock.second ds cs
  nanosecond : clock.nanosecond = nanosecondsOf ds
  hour_le : clock.hour ≤ 23
  minute_le : clock.minute ≤ 59
  second_le : clock.second ≤ 60

section

variable {hour minute second : Nat} {a s d ds : List Char}

theorem MinutesOf.alone (h : MinutesOf hour minute a) : ClockOf ⟨hour, minute, 0, 0⟩ [] a := by
  obtain ⟨hours, minutes, hour_le, minute_le, rfl⟩ := h
  exact ⟨⟨hours, minutes, .none, by rw [List.append_nil]⟩, rfl, hour_le, minute_le, Nat.zero_le _⟩

theorem MinutesOf.with_seconds (h : MinutesOf hour minute a) (seconds : FieldText second s)
    (second_le : second ≤ 60) (decimals : DecimalsText ds d) :
    ClockOf ⟨hour, minute, second, nanosecondsOf ds⟩ ds (a ++ ':' :: (s ++ d)) := by
  obtain ⟨hours, minutes, hour_le, minute_le, rfl⟩ := h
  exact ⟨⟨hours, minutes, .seconds seconds decimals, by simp⟩, rfl, hour_le, minute_le, second_le⟩

end

theorem finds_minutes : Finds minutes fun clock cs =>
    MinutesOf clock.hour clock.minute cs ∧ clock.second = 0 ∧ clock.nanosecond = 0 := by
  intro cs clock rest h
  obtain ⟨⟨hour, afterHour⟩, hours, h⟩ := bind_eq_ok.mp h
  obtain ⟨⟨⟨⟩, behind⟩, colon, h⟩ := bind_eq_ok.mp h
  obtain ⟨⟨minute, afterMinute⟩, minutes, h⟩ := bind_eq_ok.mp h
  cases h
  obtain ⟨hs, rfl, hour, -, hour_le⟩ := finds_field 0 23 hours
  obtain ⟨ms, rfl, minute, -, minute_le⟩ := finds_field 0 59 minutes
  rw [literal_eq_ok] at colon
  subst colon
  exact ⟨hs ++ ':' :: ms, by simp, ⟨hour, minute, hour_le, minute_le, rfl⟩, rfl, rfl⟩

/-- Of the decimals of a second those past the ninth are dropped. -/
theorem finds_fraction :
    Finds fraction fun n cs => ∃ ds, DecimalsText ds cs ∧ n = nanosecondsOf ds := by
  intro cs n rest h
  unfold fraction at h
  split at h
  · rename_i behind
    have all := List.all_takeWhile (p := Char.isDigit) (l := behind)
    have parts := List.prefix_iff_eq_append.mp (List.takeWhile_prefix Char.isDigit (l := behind))
    generalize behind.takeWhile Char.isDigit = ds at *
    simp only at h
    split at h
    · cases h
    · rename_i nonempty
      cases h
      exact ⟨'.' :: ds, by rw [List.cons_append, parts], ds,
        .point nonempty fun d hd => List.all_eq_true.mp all d hd, rfl⟩
  · cases h
    exact ⟨[], rfl, [], .none, rfl⟩

theorem finds_seconds : Finds seconds fun clock cs => ∃ ds, ClockOf clock ds cs := by
  intro cs clock rest h
  obtain ⟨⟨⟨hour, minute, _, _⟩, afterMinute⟩, minutes, h⟩ := bind_eq_ok.mp h
  obtain ⟨⟨⟨⟩, behind⟩, colon, h⟩ := bind_eq_ok.mp h
  obtain ⟨⟨second, afterSecond⟩, seconds, h⟩ := bind_eq_ok.mp h
  obtain ⟨⟨nanosecond, left⟩, decimals, h⟩ := bind_eq_ok.mp h
  cases h
  obtain ⟨ms, rfl, minute, -, -⟩ := finds_minutes minutes
  obtain ⟨ss, rfl, second, -, second_le⟩ := finds_field 0 60 seconds
  obtain ⟨decs, rfl, ds, decimal, rfl⟩ := finds_fraction decimals
  rw [literal_eq_ok] at colon
  subst colon
  exact ⟨ms ++ ':' :: (ss ++ decs), by simp, ds, minute.with_seconds second second_le decimal⟩

/-- An offset of less than a day, and the text that it is read from. -/
structure ZoneOf (offset : Int) (cs : List Char) : Prop where
  text : ZoneText offset cs
  low : -86400 ≤ offset
  high : offset ≤ 86400

/-- What is passed over between hours and minutes are marks, which any offset may have there. -/
theorem finds_signedOffset {mark : Reader Unit}
    (h : Finds mark fun _ cs => ∀ c ∈ cs, isMark c = true) : Finds (signedOffset mark) fun x cs =>
      ∀ front, (∀ c ∈ front, isBlank c = true) → ZoneText x (front ++ cs) := by
  intro cs x rest found
  cases cs with
  | nil => cases found
  | cons sign cs =>
    simp only [signedOffset] at found
    split at found
    · rename_i signed
      obtain ⟨⟨hours, afterHours⟩, hour, found⟩ := bind_eq_ok.mp found
      obtain ⟨⟨⟨⟩, afterMark⟩, marked, found⟩ := bind_eq_ok.mp found
      obtain ⟨⟨minutes, afterMinutes⟩, minute, last⟩ := bind_eq_ok.mp found
      obtain ⟨hh, rfl, hourDigits, two, -⟩ := finds_exactly 1 0 99 hour
      obtain ⟨marks, rfl, allMarks⟩ := h marked
      obtain ⟨mm, rfl, minuteDigits, -⟩ := finds_exactly 1 0 59 minute
      cases last
      exact ⟨sign :: (hh ++ (marks ++ mm)), by simp, fun front blank =>
        .shifted blank signed two hourDigits allMarks minuteDigits⟩
    · cases found

theorem within_eq_ok {limit x : Int} {read : Reader Int} {cs rest : List Char} :
    within limit read cs = .ok (x, rest) ↔ read cs = .ok (x, rest) ∧ -limit ≤ x ∧ x ≤ limit := by
  unfold within
  rw [bind_eq_ok]
  constructor
  · rintro ⟨⟨y, left⟩, found, h⟩
    simp only at h
    split at h
    · rename_i inside
      cases h
      exact ⟨found, inside⟩
    · cases h
  · rintro ⟨found, inside⟩
    exact ⟨(x, rest), found, if_pos inside⟩

theorem finds_looseOffset : Finds looseOffset ZoneOf := by
  intro cs x rest h
  obtain ⟨read, low, high⟩ := within_eq_ok.mp h
  have day : ((Instant.secondsPerDay : Nat) : Int) = 86400 := rfl
  obtain ⟨front, blank, trimmed⟩ := exists_blanks cs
  obtain ⟨taken, parts, text⟩ := finds_signedOffset (fun cs _ rest h => by
    cases h
    exact ⟨cs.takeWhile isMark, List.takeWhile_append_dropWhile.symm,
      fun _ hc => List.mem_takeWhile_imp hc⟩) read
  refine ⟨front ++ taken, ?_, text front blank, ?_, ?_⟩
  · rw [List.append_assoc, ← parts, ← trimmed]
  · omega
  · omega

theorem finds_strictOffset : Finds strictOffset ZoneOf := by
  intro cs x rest h
  unfold strictOffset at h
  split at h
  · cases h
    exact ⟨['Z'], rfl, .utc (.inl rfl), by decide, by decide⟩
  · cases h
    exact ⟨['z'], rfl, .utc (.inr rfl), by decide, by decide⟩
  · obtain ⟨read, low, high⟩ := within_eq_ok.mp h
    obtain ⟨taken, parts, text⟩ := finds_signedOffset (fun cs _ rest h => by
      rw [literal_eq_ok.mp h]
      exact ⟨[':'], rfl, by simp [isMark]⟩) read
    exact ⟨taken, parts, text [] (by simp), by omega, by omega⟩

namespace Stamp

def clock (s : Stamp) : Clock := ⟨s.hour, s.minute, s.second, nanosecondsOf s.decimals⟩

def instant? (s : Stamp) : Option Instant := instantOf? (s.year, s.month, s.day) s.clock s.offset

/-- The bounds of a clock and its offset. A minute may have a leap second. -/
structure InRange (s : Stamp) : Prop where
  hour_le : s.hour ≤ 23
  minute_le : s.minute ≤ 59
  second_le : s.second ≤ 60
  offset_ge : -86400 ≤ s.offset
  offset_le : s.offset ≤ 86400

end Stamp

/-- A date-time that the text writes and the instant is made from. -/
structure Source (t : Instant) (cs : List Char) (s : Stamp) : Prop where
  writes : s.Writes cs
  inRange : s.InRange
  instant : s.instant? = some t

/-- A date, a separator, a clock and a zone are a date-time when put together. -/
theorem source_of_parts {year : Int} {month day : Nat} {clock : Clock} {offset : Int}
    {ds d c z : List Char} {separator : Char} {t : Instant} (date : DateText year month day d)
    (separated : separator = 'T' ∨ separator = 't' ∨ separator = ' ') (clocks : ClockOf clock ds c)
    (zone : ZoneOf offset z) (h : instantOf? (year, month, day) clock offset = some t) :
    ∃ s, Source t (d ++ separator :: (c ++ z)) s := by
  obtain ⟨hour, minute, second, nanosecond⟩ := clock
  obtain ⟨text, rfl, hour_le, minute_le, second_le⟩ := clocks
  exact ⟨⟨year, month, day, hour, minute, second, ds, offset⟩, .time date separated text zone.text rfl,
    ⟨hour_le, minute_le, second_le, zone.low, zone.high⟩, h⟩

theorem source_of_looseForm {clock : Reader Clock} {offset : Reader Int} {cs z : List Char}
    {t : Instant} (clocks : Finds clock fun clock cs => ∃ ds, ClockOf clock ds cs)
    (zones : Finds offset fun x cs => ZoneOf x (cs ++ z))
    (h : looseForm clock offset cs = .ok (some t)) : ∃ s, Source t (cs ++ z) s := by
  obtain ⟨⟨⟨y, m, d⟩, afterDate⟩, date, h⟩ := bind_eq_ok.mp h
  obtain ⟨⟨⟨⟩, separated⟩, separator, h⟩ := bind_eq_ok.mp h
  obtain ⟨⟨c, afterClock⟩, clock, h⟩ := bind_eq_ok.mp h
  obtain ⟨⟨x, left⟩, offset, h⟩ := bind_eq_ok.mp h
  obtain ⟨⟨⟩, finish, made⟩ := bind_eq_ok.mp h
  cases left with
  | cons => cases finish
  | nil =>
    obtain ⟨ds, rfl, dateText⟩ := finds_dateFields date
    obtain ⟨ts, rfl, decimals, clockOf⟩ := clocks clock
    obtain ⟨zs, rfl, zoneOf⟩ := zones offset
    rw [literal_eq_ok] at separator
    subst separator
    have source := source_of_parts dateText (.inl rfl) clockOf zoneOf (Except.ok.inj made)
    simpa using source

theorem strictSeparator_eq_ok {cs rest : List Char} (h : strictSeparator cs = .ok ((), rest)) :
    ∃ c, (c = 'T' ∨ c = 't' ∨ c = ' ') ∧ cs = c :: rest := by
  unfold strictSeparator at h
  split at h <;> cases h
  · exact ⟨'T', .inl rfl, rfl⟩
  · exact ⟨'t', .inr (.inl rfl), rfl⟩
  · exact ⟨' ', .inr (.inr rfl), rfl⟩

/-- What the strict form reads is a date-time with its fields in full. -/
theorem source_of_strictForm {cs : List Char} {t : Instant} (h : strictForm cs = .ok (some t)) :
    ∃ s, Source t cs s := by
  obtain ⟨⟨y, r₁⟩, year, h⟩ := bind_eq_ok.mp h
  obtain ⟨⟨⟨⟩, r₂⟩, dash, h⟩ := bind_eq_ok.mp h
  obtain ⟨⟨m, r₃⟩, month, h⟩ := bind_eq_ok.mp h
  obtain ⟨⟨⟨⟩, r₄⟩, dash', h⟩ := bind_eq_ok.mp h
  obtain ⟨⟨d, r₅⟩, day, h⟩ := bind_eq_ok.mp h
  obtain ⟨⟨⟨⟩, r₆⟩, separator, h⟩ := bind_eq_ok.mp h
  obtain ⟨⟨hour, r₇⟩, hours, h⟩ := bind_eq_ok.mp h
  obtain ⟨⟨⟨⟩, r₈⟩, colon, h⟩ := bind_eq_ok.mp h
  obtain ⟨⟨minute, r₉⟩, minutes, h⟩ := bind_eq_ok.mp h
  obtain ⟨⟨⟨⟩, r₁₀⟩, colon', h⟩ := bind_eq_ok.mp h
  obtain ⟨⟨second, r₁₁⟩, seconds, h⟩ := bind_eq_ok.mp h
  obtain ⟨⟨nanosecond, r₁₂⟩, fraction, h⟩ := bind_eq_ok.mp h
  obtain ⟨⟨x, left⟩, offset, h⟩ := bind_eq_ok.mp h
  obtain ⟨⟨⟩, finish, made⟩ := bind_eq_ok.mp h
  cases left with
  | cons => cases finish
  | nil =>
    obtain ⟨ys, rfl, yearDigits, -⟩ := finds_exactly 3 0 9999 year
    obtain ⟨ms, rfl, monthDigits, -⟩ := finds_exactly 1 1 12 month
    obtain ⟨ds, rfl, dayDigits, -⟩ := finds_exactly 1 1 31 day
    obtain ⟨hs, rfl, hourDigits, -, -, hour_le⟩ := finds_exactly 1 0 23 hours
    obtain ⟨mins, rfl, minuteDigits, -, -, minute_le⟩ := finds_exactly 1 0 59 minutes
    obtain ⟨ss, rfl, secondDigits, -, -, second_le⟩ := finds_exactly 1 0 60 seconds
    obtain ⟨decs, rfl, decimals, decimalsText, rfl⟩ := finds_fraction fraction
    obtain ⟨zs, rfl, zone⟩ := finds_strictOffset offset
    obtain ⟨c, separated, rfl⟩ := strictSeparator_eq_ok separator
    rw [literal_eq_ok] at dash dash' colon colon'
    subst dash dash' colon colon'
    have date : DateText y m d (ys ++ '-' :: (ms ++ '-' :: ds)) :=
      ⟨⟨fun _ hc => absurd hc List.not_mem_nil, .none, yearDigits, rfl, rfl⟩,
        .of_digits monthDigits, .of_digits dayDigits, rfl⟩
    have clock := MinutesOf.with_seconds ⟨.of_digits hourDigits, .of_digits minuteDigits, hour_le,
      minute_le, rfl⟩ (.of_digits secondDigits) second_le decimalsText
    have source := source_of_parts date separated clock zone (Except.ok.inj made)
    simpa using source

/-- The text of a date alone is that of its midnight. -/
theorem source_of_date {cs : List Char} {d : Date} (h : date cs = .ok d) :
    ∃ s, Source (.midnight d) cs s := by
  obtain ⟨⟨⟨y, m, day⟩, left⟩, fields, h⟩ := bind_eq_ok.mp h
  obtain ⟨⟨⟩, finish, found⟩ := bind_eq_ok.mp h
  cases left with
  | cons => cases finish
  | nil =>
    obtain ⟨taken, rfl, text⟩ := finds_dateFields fields
    have made : Date.ofFields? y m day = some d := by
      cases made : Date.ofFields? y m day with
      | none => rw [made] at found; cases found
      | some e => rw [made] at found; cases found; rfl
    have clock : (Stamp.midnight y m day).clock.on d = .midnight d := by
      simp [Stamp.midnight, Stamp.clock, Clock.on, nanosecondsOf, natOfDigits, Instant.midnight]
    refine ⟨.midnight y m day, .date (by simpa [Stamp.midnight] using text) rfl,
      by constructor <;> simp [Stamp.midnight], ?_⟩
    calc (Stamp.midnight y m day).instant?
        = (Date.ofFields? y m day).bind fun d =>
            ((Stamp.midnight y m day).clock.on d).atOffset? 0 := rfl
      _ = (Instant.midnight d).atOffset? 0 := by rw [made, Option.bind_some, clock]
      _ = some (.midnight d) := Instant.atOffset?_zero (Nat.succ_pos 86399)

/-- A final `Z` that is taken off was a zone, and where none is taken off there may be none. -/
theorem exists_zone (cs : List Char) : ∃ z, ZoneOf 0 z ∧ cs = withoutZone cs ++ z := by
  unfold withoutZone
  split
  · rename_i last
    refine ⟨['Z'], ⟨.utc (.inl rfl), by decide, by decide⟩, ?_⟩
    exact (List.dropLast_append_getLast? 'Z' last).symm
  · exact ⟨[], ⟨.none, by decide, by decide⟩, (List.append_nil cs).symm⟩

theorem finds_noOffset {z : List Char} (h : ZoneOf 0 z) :
    Finds noOffset fun x cs => ZoneOf x (cs ++ z) := by
  intro cs x rest found
  cases found
  exact ⟨[], rfl, h⟩

/-- What reading an instant takes for granted of the text: it is that of one date-time, and the
instant is that date-time with the digits past the ninth decimal dropped. -/
theorem readInstant?_source {cs : List Char} {t : Instant} (h : readInstant? cs = some t) :
    ∃ s, Source t cs s := by
  obtain ⟨form, mem, made⟩ := List.exists_of_findSome?_eq_some h
  have ok : form = .ok (some t) := by
    rcases form with _ | _ | _ <;> simp_all [Except.toOption]
  have whole : Finds looseOffset fun x cs => ZoneOf x (cs ++ []) :=
    finds_looseOffset.mono fun x cs zone => by rwa [List.append_nil]
  have minute : Finds minutes fun clock cs => ∃ ds, ClockOf clock ds cs := by
    refine finds_minutes.mono fun clock cs ⟨text, second, nanosecond⟩ => ?_
    obtain ⟨hour, minute, _, _⟩ := clock
    cases second
    cases nanosecond
    exact ⟨[], text.alone⟩
  obtain ⟨z, zone, parts⟩ := exists_zone cs
  simp only [List.mem_cons, List.not_mem_nil, or_false] at mem
  rcases mem with rfl | rfl | rfl | rfl | rfl | rfl
  · exact source_of_strictForm ok
  · simpa using source_of_looseForm finds_seconds whole ok
  · simpa using source_of_looseForm minute whole ok
  · rw [parts]
    exact source_of_looseForm finds_seconds (finds_noOffset zone) ok
  · rw [parts]
    exact source_of_looseForm minute (finds_noOffset zone) ok
  · obtain ⟨d, read, midnight⟩ := map_eq_ok.mp ok
    cases midnight
    exact source_of_date read

/-- The second of a leap second counts past the end of its minute. -/
theorem seconds_on {c : Clock} (h : c.second ≤ 60) (d : Date) : (c.on d).seconds =
    d.number * 86400 + (c.hour * 3600 + c.minute * 60 + c.second) + c.nanosecond / 10 ^ 9 := by
  have second : (Instant.nanosecondsPerSecond : ℚ) = 10 ^ 9 := by
    norm_num [Instant.nanosecondsPerSecond]
  rcases Nat.lt_or_eq_of_le h with regular | leap
  · have upto : min c.second 59 = c.second := Nat.min_eq_left (Nat.le_of_lt_succ regular)
    simp only [Clock.on, Instant.seconds, upto, if_neg (Nat.ne_of_lt regular)]
    push_cast
    ring
  · simp only [Clock.on, Instant.seconds, leap, if_pos]
    push_cast
    rw [second]
    norm_num
    ring

/-- Dropping digits rounds down. -/
theorem nanosecondsOf_eq_floor {ds : List Char} (h : ∀ c ∈ ds, c.isDigit = true) :
    (nanosecondsOf ds : Int) = ⌊fractionOf ds * 10 ^ 9⌋ := by
  rw [floor_fractionOf h, nanosecondsOf, placeValue_eq]
  push_cast
  rfl

namespace Source

variable {t : Instant} {cs : List Char} {s : Stamp}

theorem shown (h : Source t cs s) :
    ∃ d, d.number = Date.dayNumber s.year s.month s.day ∧ (s.clock.on d).atOffset? s.offset = some t := by
  obtain ⟨d, made, shown⟩ := Option.bind_eq_some_iff.mp h.instant
  exact ⟨d, Date.number_of_ofFields? made, shown⟩

/-- Nanoseconds are kept, and what is left of one is dropped. -/
theorem seconds_eq (h : Source t cs s) : t.seconds = ⌊s.seconds * 10 ^ 9⌋ / 10 ^ 9 := by
  obtain ⟨d, number, shown⟩ := h.shown
  have floor : ⌊s.seconds * 10 ^ 9⌋ = (d.number * 86400 + (s.hour * 3600 + s.minute * 60 + s.second) -
      s.offset) * 10 ^ 9 + nanosecondsOf s.decimals := by
    have split : s.seconds * 10 ^ 9 = (((d.number * 86400 +
        (s.hour * 3600 + s.minute * 60 + s.second) - s.offset) * 10 ^ 9 : Int) : ℚ) +
        fractionOf s.decimals * 10 ^ 9 := by
      rw [Stamp.seconds, ← number]
      push_cast
      ring
    rw [split, Int.floor_intCast_add, nanosecondsOf_eq_floor h.writes.digits]
  rw [Instant.seconds_atOffset h.inRange.offset_ge h.inRange.offset_le shown,
    seconds_on h.inRange.second_le, floor]
  simp only [Stamp.clock]
  push_cast
  field_simp
  ring

/-- Outside of a leap second the clock of an instant stays within its day. -/
theorem regular (h : Source t cs s) (second : s.second ≤ 59) : t.Regular := by
  obtain ⟨d, number, shown⟩ := h.shown
  have hour := h.inRange.hour_le
  have minute := h.inRange.minute_le
  refine Instant.Regular.atOffset ⟨?_, ?_⟩ h.inRange.offset_ge h.inRange.offset_le shown
  · simp only [Clock.on, Stamp.clock]
    omega
  · have below : ⌊fractionOf s.decimals * 10 ^ 9⌋ < 10 ^ 9 := by
      rw [Int.floor_lt]
      have := fractionOf_lt_one s.decimals
      push_cast
      linarith
    rw [← nanosecondsOf_eq_floor h.writes.digits] at below
    have regular : s.clock.second ≠ 60 := Nat.ne_of_lt (Nat.lt_succ_of_le second)
    simp only [Clock.on, if_neg regular]
    exact_mod_cast below

end Source

end EntityFilter.Calendar

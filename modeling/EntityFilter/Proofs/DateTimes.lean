import EntityFilter.Filter.Coercion
import EntityFilter.Proofs.Lexing
import EntityFilter.Proofs.Moments

namespace EntityFilter

open Text Shape Lexeme

namespace Calendar

variable {rest : List Char}

theorem takes_digitsOf (width n : Nat) (rest : List Char) :
    Takes (times width digit) (digitsOf width n) rest := by
  have taken : Takes (times (digitsOf width n).length digit) (digitsOf width n) rest :=
    takes_times fun c hc => isDecimalDigit_of_isDigit (isDigit_of_mem_digitsOf width n c hc)
  rwa [length_digitsOf] at taken

theorem Moment.takes_date (m : Moment) (rest : List Char) : Takes Lexeme.date m.dateChars rest := by
  simp only [Lexeme.date, append_assoc]
  exact (takes_digitsOf ..).append ((takes_digitsOf ..).append (takes_digitsOf ..).char_append).char_append

/-- What stands behind the clock is a zone or nothing. -/
theorem TimeOfDay.zone_head (t : TimeOfDay) :
    ∀ c ∈ t.zoneChars.head?, c = 'Z' ∨ c = '+' ∨ c = '-' := by
  intro c hc
  rw [zoneChars] at hc
  cases hz : t.zone with
  | none =>
    rw [hz] at hc
    cases hc
  | some z =>
    rw [hz] at hc
    cases z with
    | utc =>
      cases hc
      exact .inl rfl
    | shifted ahead =>
      cases hc
      cases ahead
      · exact .inr (.inr rfl)
      · exact .inr (.inl rfl)

theorem TimeOfDay.takes_zone (t : TimeOfDay) : Takes (opt Lexeme.zone) t.zoneChars [] := by
  rw [zoneChars]
  cases t.zone with
  | none => exact takes_opt_none rfl
  | some z =>
    refine Takes.opt ?_
    cases z with
    | utc => exact (takes_one rfl : Takes (char 'Z') ['Z'] []).or
    | shifted ahead colon hours minutes hours_le minutes_le =>
      have noColon : char ':' (digitsOf 2 minutes ++ []) = none := char_none fun c hc => by
        have digit := (digits_two (minutes_le.trans (by decide))).head [] c hc
        rintro rfl
        exact absurd digit (by decide)
      have mark : Takes (opt (char ':')) (if colon then [':'] else []) (digitsOf 2 minutes ++ []) := by
        cases colon
        · exact takes_opt_none noColon
        · exact (takes_one rfl : Takes (char ':') [':'] _).opt
      have sign (cs : List Char) : Takes Lexeme.sign [if ahead then '+' else '-'] cs :=
        takes_one (by cases ahead <;> rfl)
      refine Takes.or_right ?_ ?_
      · cases ahead <;> rfl
      · simp only [append_assoc]
        exact (sign _).append ((takes_digitsOf ..).append (mark.append (takes_digitsOf ..)))

theorem TimeOfDay.takes_seconds (t : TimeOfDay) :
    Takes (opt Lexeme.seconds) ((t.seconds.map Seconds.chars).getD []) t.zoneChars := by
  have head {d : Char} (hd : d ≠ 'Z' ∧ d ≠ '+' ∧ d ≠ '-') : ∀ c ∈ t.zoneChars.head?, c ≠ d := by
    rintro c hc rfl
    rcases t.zone_head c hc with h | h | h
    · exact hd.1 h
    · exact hd.2.1 h
    · exact hd.2.2 h
  cases t.seconds with
  | none =>
    refine takes_opt_none ?_
    simp only [Lexeme.seconds, append_assoc]
    exact char_append_none (head (by decide))
  | some s =>
    refine Takes.opt ?_
    simp only [Lexeme.seconds, append_assoc]
    refine Takes.char_append ((takes_digitsOf ..).append ?_)
    split
    · exact takes_opt_none (char_append_none (head (by decide)))
    · rename_i nonempty
      refine (takes_many1 nonempty (fun c hc => isDecimalDigit_of_isDigit (s.digits c hc))
        fun c hc => ?_).char_append.opt
      rcases t.zone_head c hc with rfl | rfl | rfl <;> decide

/-- A date or date-time is one argument as it stands. -/
theorem Moment.takes (m : Moment) : Takes (dateTime.or Lexeme.date) m.chars [] := by
  have date := m.takes_date
  rw [chars]
  cases m.time with
  | none =>
    have noTime : dateTime (m.dateChars ++ []) = none := by
      simp only [dateTime, append_assoc]
      exact (date []).append_none rfl
    rw [Option.map_none, Option.getD_none, List.append_nil]
    exact .or_right noTime (date [])
  | some t =>
    have seconds : Takes (opt Lexeme.seconds) ((t.seconds.map Seconds.chars).getD [])
        (t.zoneChars ++ []) := by
      rw [List.append_nil]
      exact t.takes_seconds
    have minutes := ((takes_digitsOf 2 t.minute _).append (seconds.append t.takes_zone)).char_append
      (c := ':')
    have time := (date _).append (((takes_digitsOf 2 t.hour _).append minutes).char_append (c := 'T'))
    refine Takes.or ?_
    simp only [dateTime, append_assoc]
    simpa [TimeOfDay.clockChars] using time

/-- A moment is an argument of its own. -/
theorem Moment.standing (m : Moment) :
    Lexer.Standing (.ofBare (String.ofList m.chars)) m.chars := by
  constructor
  · intro c hc
    have digit : c.isDigit = true := by
      rw [chars, dateChars, List.append_assoc] at hc
      exact m.year_digits.head _ c hc
    refine ⟨Stamp.blank_of_digit digit, ?_, ?_⟩ <;> rintro rfl <;> exact absurd digit (by decide)
  · exact bare?_eq_some.mpr (.date m.takes.split)

end Calendar

open Calendar

/-- Each moment is lexed as one argument, whatever ends it, and that is read as the instant of its
fields. -/
theorem moment_reads_argument (m : Moment) {rest : List Char} (closes : Closes rest) :
    Lexer.Reads .argument (m.chars ++ rest) (.argument (.ofBare (String.ofList m.chars))) .connector
        rest ∧
      ∃ t : Instant, Value.ofLiteral (.ofBare (String.ofList m.chars)) .dateTime = .ok (.instant t) ∧
        t.IsAt m.stamp.seconds := by
  constructor
  · exact m.standing.reads closes.ended
  · obtain ⟨t, read, place⟩ := m.readInstant?_eq
    refine ⟨t, ?_, place⟩
    simp only [Value.ofLiteral, Literal.ofBare, Value.unsuffixed, Value.instantOf?,
      String.toList_ofList, read]
    rfl

namespace Clinic

/-- The last half hour of a year, as clocks an hour behind UTC show it. -/
def newYearsEve : Moment where
  date := ⟨2013, 12, 31, by decide, by decide, by decide, by decide, by decide, by decide⟩
  time := some {
    hour := 23
    minute := 30
    seconds := some ⟨15, ['2', '5'], by decide, List.all_eq_true.mp rfl, by decide⟩
    zone := some (.shifted false false 1 0 (by decide) (by decide))
    hour_le := by decide
    minute_le := by decide }
  year_ge := by decide
  year_le := by decide

end Clinic

/-- The year is over in UTC, and a selector follows behind the point. -/
theorem moment_reads_argument_of_clinic :
    Clinic.newYearsEve.chars = "2013-12-31T23:30:15.25-0100".toList ∧ Closes ".age==1".toList ∧
      Lexer.Reads .argument (Clinic.newYearsEve.chars ++ ".age==1".toList)
        (.argument (.ofBare (String.ofList Clinic.newYearsEve.chars))) .connector ".age==1".toList ∧
      ∃ t : Instant,
        Value.ofLiteral (.ofBare (String.ofList Clinic.newYearsEve.chars)) .dateTime = .ok (.instant t) ∧
        t.IsAt Clinic.newYearsEve.stamp.seconds :=
  have closes : Closes ".age==1".toList := .connector .nand fun d hd => by cases hd; decide
  ⟨by decide, closes, moment_reads_argument Clinic.newYearsEve closes⟩

end EntityFilter

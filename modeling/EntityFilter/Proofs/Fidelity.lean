import EntityFilter.Proofs.InstantReading
import EntityFilter.Proofs.Rounding
import EntityFilter.Proofs.Typing

namespace EntityFilter

open Text Numeral

/-- The text is that of the number, and of no other. -/
structure Numeral.IsOf (n : Numeral) (cs : List Char) : Prop where
  writes : n.Writes cs
  only : ∀ m : Numeral, m.Writes cs → m = n

/-- The text is that of the date-time, and of no other. -/
structure Calendar.Stamp.IsOf (s : Calendar.Stamp) (cs : List Char) : Prop where
  writes : s.Writes cs
  only : ∀ t : Calendar.Stamp, t.Writes cs → t = s

theorem Numeral.Writes.isOf {n : Numeral} {cs : List Char} (h : n.Writes cs) : n.IsOf cs :=
  ⟨h, fun _ other => other.unique h⟩

theorem Calendar.Stamp.Writes.isOf {s : Calendar.Stamp} {cs : List Char} (h : s.Writes cs) :
    s.IsOf cs :=
  ⟨h, fun _ other => other.unique h⟩

/-- Digits with an optional sign write a whole number. -/
theorem Numeral.exists_of_digits {negative : Bool} {sign ds : List Char} {n : Nat}
    (signed : SignText negative sign) (digits : Digits n ds) :
    ∃ m : Numeral, m.Writes (sign ++ ds) ∧ m.value = ((if negative then -n else n : Int) : ℚ) := by
  refine ⟨⟨negative, ds, [], 0⟩, ⟨⟨signed, ⟨?_, ?_⟩, .none, rfl⟩, .none, ?_⟩, ?_⟩
  · obtain ⟨c, rest, rfl⟩ := List.exists_cons_of_ne_nil digits.nonempty
    exact ⟨c, rfl, digits.digits c List.mem_cons_self⟩
  · intro c hc
    rw [List.append_nil] at hc
    rw [isDigitOrMark, digits.digits c hc, Bool.true_or]
  · simp
  · have all : ds.filter Char.isDigit = ds := List.filter_eq_self.mpr digits.digits
    cases negative <;> simp [value, base, signOf, fractionOf, all, digits.value]

theorem Text.digits_of_lift {cs : List Char} {k : Int}
    (h : (do let n ← natOf? cs; pure (n : Int)) = some k) : ∃ n : Nat, Digits n cs ∧ n = k := by
  obtain ⟨n, read, same⟩ := Option.bind_eq_some_iff.mp h
  exact ⟨n, natOf?_eq_some.mp read, Option.some.inj same⟩

theorem Text.intOf?_eq_some {cs : List Char} {k : Int} (h : intOf? cs = some k) :
    ∃ n : Numeral, n.Writes cs ∧ n.value = k := by
  unfold intOf? at h
  split at h
  · obtain ⟨m, read, rfl⟩ := Option.map_eq_some_iff.mp h
    obtain ⟨n, digits, rfl⟩ := digits_of_lift read
    exact Numeral.exists_of_digits SignText.minus digits
  · obtain ⟨m, read, rfl⟩ := Option.map_eq_some_iff.mp h
    obtain ⟨n, digits, rfl⟩ := digits_of_lift read
    exact Numeral.exists_of_digits SignText.plus digits
  · obtain ⟨m, read, rfl⟩ := Option.map_eq_some_iff.mp h
    obtain ⟨n, digits, rfl⟩ := digits_of_lift read
    exact Numeral.exists_of_digits SignText.none digits

/-- Whole numbers are kept exactly or refused. -/
theorem Text.wordOf?_eq_some {bits : Nat} {cs : List Char} {k : Int} (h : wordOf? bits cs = some k) :
    fitsWord bits k = true ∧ ∃ n : Numeral, n.IsOf cs ∧ n.value = k := by
  obtain ⟨read, fits⟩ := Option.filter_eq_some_iff.mp h
  obtain ⟨n, writes, value⟩ := intOf?_eq_some read
  exact ⟨fits, n, writes.isOf, value⟩

namespace Value

/-- What a value of a type is of the number or the date-time that a text writes. -/
inductive Keeps (cs : List Char) : AttributeType → Value → Prop where
  | integer {n : Numeral} {k : Int} (number : n.IsOf cs) (exact : n.value = k)
    (fits : fitsWord 32 k = true) : Keeps cs .integer (.integer k)
  | long {n : Numeral} {k : Int} (number : n.IsOf cs) (exact : n.value = k)
    (fits : fitsWord 64 k = true) : Keeps cs .long (.long k)
  | decimal {n : Numeral} {d : Decimal} (number : n.IsOf cs) (reads : d.Reads n) :
    Keeps cs .decimal (.decimal d)
  | instant {s : Calendar.Stamp} {t : Instant} (stamp : s.IsOf cs)
    (cut : t.seconds = ⌊s.seconds * 10 ^ 9⌋ / 10 ^ 9) : Keeps cs .dateTime (.instant t)

/-- The types that a literal of digits is read as without going through a binary fraction. -/
def IsExacting (type : AttributeType) : Prop :=
  type = .integer ∨ type = .long ∨ type = .decimal ∨ type = .dateTime

/-- What a literal without a suffix keeps. Whole numbers are kept exactly or refused. A decimal may
be off by less than a unit of its last place, and an instant by less than a nanosecond: digits that
they have no room for are no error. -/
theorem ofLiteral_keeps {l : Literal} {type : AttributeType} {v : Value} (plain : l.suffix = none)
    (exacting : IsExacting type) (h : ofLiteral l type = .ok v) : Keeps l.text.toList type v := by
  rcases exacting with rfl | rfl | rfl | rfl
  · simp only [ofLiteral, ofNumber, plain] at h
    obtain ⟨k, read, rfl⟩ := Option.map_eq_some_iff.mp (orRefuse_eq_ok.mp h)
    obtain ⟨fits, n, number, exact⟩ := Text.wordOf?_eq_some read
    exact .integer number exact fits
  · simp only [ofLiteral, ofNumber, plain] at h
    obtain ⟨k, read, rfl⟩ := Option.map_eq_some_iff.mp (orRefuse_eq_ok.mp h)
    obtain ⟨fits, n, number, exact⟩ := Text.wordOf?_eq_some read
    exact .long number exact fits
  · simp only [ofLiteral, ofNumber, plain] at h
    obtain ⟨d, read, rfl⟩ := Option.map_eq_some_iff.mp (orRefuse_eq_ok.mp h)
    rw [Decimal.ofText?_or_ofScientific?] at read
    obtain ⟨n, writes, reads⟩ := Decimal.ofText?_reads read
    exact .decimal writes.isOf reads
  · obtain ⟨-, h⟩ := unsuffixed_eq_ok.mp h
    obtain ⟨t, read, rfl⟩ := Option.map_eq_some_iff.mp (orRefuse_eq_ok.mp h)
    obtain ⟨s, source⟩ := Calendar.readInstant?_source read
    exact .instant source.writes.isOf source.seconds_eq

/-- The weight of a pet. -/
theorem ofLiteral_keeps_of_clinic :
    ofLiteral (.ofBare "2.50") .decimal = .ok (.decimal ⟨false, 250, 2⟩) ∧
      Keeps "2.50".toList .decimal (.decimal ⟨false, 250, 2⟩) :=
  ⟨by decide, ofLiteral_keeps (l := .ofBare "2.50") rfl (.inr (.inr (.inl rfl))) (by decide)⟩

/-- Half a unit of the last place counts as one, and the tenth decimal of a second as nothing. -/
theorem ofLiteral_narrows :
    (∃ (n : Numeral) (d : Decimal), n.Writes "0.00000000000000000000000000005".toList ∧
      ofLiteral (.ofBare "0.00000000000000000000000000005") .decimal = .ok (.decimal d) ∧
      d.value ≠ n.value) ∧
    ∃ (s : Calendar.Stamp) (t : Instant), s.Writes "2013-01-04T09:15:00.0000000001Z".toList ∧
      ofLiteral (.ofBare "2013-01-04T09:15:00.0000000001Z") .dateTime = .ok (.instant t) ∧
      t.seconds ≠ s.seconds := by
  constructor
  · refine ⟨⟨false, ['0'], "00000000000000000000000000005".toList, 0⟩, ⟨false, 1, 28⟩,
      ⟨⟨.none, ⟨⟨'0', rfl, by decide⟩, List.all_eq_true.mp rfl⟩, .point _, rfl⟩, .none, rfl⟩,
      by decide, ?_⟩
    have fraction : fractionOf "00000000000000000000000000005".toList = 5 / 10 ^ 29 := by
      simp [fractionOf, digitValue]
      norm_num
    have whole : natOfDigits (['0'].filter Char.isDigit) = 0 := rfl
    norm_num [Decimal.value, Decimal.signed, Numeral.value, base, signOf, whole, fraction]
  · refine ⟨⟨2013, 1, 4, 9, 15, 0, "0000000001".toList, 0⟩,
      ⟨⟨2013, 1, 4, by decide, by decide, by decide, by decide, by decide, by decide⟩, 33300, 0⟩,
      ?_, by decide, ?_⟩
    · have field {n : Nat} (ds : List Char) (h : natOf? ds = some n) :
          Calendar.Stamp.FieldText n ds := .of_digits (natOf?_eq_some.mp h)
      have decimals : Calendar.Stamp.DecimalsText "0000000001".toList ".0000000001".toList :=
        .point (by decide) (List.all_eq_true.mp rfl)
      refine .time (d := "2013-01-04".toList) (t := "09:15:00.0000000001".toList) (z := ['Z'])
        (.intro (y := "2013".toList) ?_ (field "01".toList rfl) (field "04".toList rfl)
          rfl) (.inl rfl)
        ⟨field "09".toList rfl, field "15".toList rfl, .seconds (field "00".toList rfl) decimals, rfl⟩
        (.utc (.inl rfl)) rfl
      exact ⟨fun _ hc => absurd hc List.not_mem_nil, .none,
        natOf?_eq_some.mp (rfl : natOf? "2013".toList = some 2013), rfl, rfl⟩
    · have fraction : fractionOf "0000000001".toList = 1 / 10 ^ 10 := by
        simp [fractionOf, digitValue]
        norm_num
      simp only [Instant.seconds, Calendar.Stamp.seconds, Date.number, fraction]
      norm_num

end Value

end EntityFilter

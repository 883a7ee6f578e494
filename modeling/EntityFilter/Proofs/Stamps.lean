import EntityFilter.Calendar.Reading
import EntityFilter.Proofs.Numerals
import EntityFilter.Proofs.Timeline

namespace EntityFilter.Calendar

open Text Numeral

/-- A date-time before it is read, with the offset of its clock in seconds. -/
structure Stamp where
  year : Int
  month : Nat
  day : Nat
  hour : Nat
  minute : Nat
  second : Nat
  decimals : List Char
  offset : Int

namespace Stamp

def midnight (year : Int) (month day : Nat) : Stamp := ⟨year, month, day, 0, 0, 0, [], 0⟩

def seconds (s : Stamp) : ℚ :=
  Date.dayNumber s.year s.month s.day * 86400 + (s.hour * 3600 + s.minute * 60 + s.second) +
    fractionOf s.decimals - s.offset

/-- Digits after white space. -/
inductive FieldText (n : Nat) (cs : List Char) : Prop where
  | intro {blanks ds : List Char} (blank : ∀ c ∈ blanks, isBlank c = true) (digits : Digits n ds)
    (parts : cs = blanks ++ ds)

/-- Digits after white space and an optional sign. -/
inductive YearText (year : Int) (cs : List Char) : Prop where
  | intro {blanks sign ds : List Char} {negative : Bool} {n : Nat}
    (blank : ∀ c ∈ blanks, isBlank c = true) (signed : SignText negative sign) (digits : Digits n ds)
    (value : year = if negative then -(n : Int) else n) (parts : cs = blanks ++ (sign ++ ds))

inductive DateText (year : Int) (month day : Nat) (cs : List Char) : Prop where
  | intro {y m d : List Char} (years : YearText year y) (months : FieldText month m)
    (days : FieldText day d) (parts : cs = y ++ '-' :: (m ++ '-' :: d))

inductive DecimalsText : List Char → List Char → Prop where
  | none : DecimalsText [] []
  | point {ds : List Char} (nonempty : ds ≠ []) (digits : ∀ c ∈ ds, c.isDigit = true) :
    DecimalsText ds ('.' :: ds)

inductive SecondsText : Nat → List Char → List Char → Prop where
  | none : SecondsText 0 [] []
  | seconds {second : Nat} {ds s d : List Char} (seconds : FieldText second s)
    (decimals : DecimalsText ds d) : SecondsText second ds (':' :: (s ++ d))

inductive ClockText (hour minute second : Nat) (ds cs : List Char) : Prop where
  | intro {h m s : List Char} (hours : FieldText hour h) (minutes : FieldText minute m)
    (seconds : SecondsText second ds s) (parts : cs = h ++ ':' :: (m ++ s))

def isMark (c : Char) : Bool := c == ':' || isBlank c

/-- The seconds of an offset behind its sign. -/
def offsetOf (sign : Char) (hours minutes : Nat) : Int :=
  let n : Int := (hours * 3600 + minutes * 60 : Nat)
  if sign = '+' then n else -n

def IsOffsetSign (c : Char) : Prop := c = '+' ∨ c = '-' ∨ c = '−'

/-- Two digits for the hours, then those for the minutes, which marks may part from them. -/
inductive ZoneText : Int → List Char → Prop where
  | none : ZoneText 0 []
  | utc {c : Char} (h : c = 'Z' ∨ c = 'z') : ZoneText 0 [c]
  | shifted {blanks hh marks mm : List Char} {sign : Char} {hours minutes : Nat}
    (blank : ∀ c ∈ blanks, isBlank c = true) (signed : IsOffsetSign sign) (two : hh.length = 2)
    (hourDigits : Digits hours hh) (marked : ∀ c ∈ marks, isMark c = true)
    (minuteDigits : Digits minutes mm) :
    ZoneText (offsetOf sign hours minutes) (blanks ++ sign :: (hh ++ (marks ++ mm)))

/-- The text is that of the date-time, or of a date that is its own midnight. -/
inductive Writes (s : Stamp) (cs : List Char) : Prop where
  | date (date : DateText s.year s.month s.day cs) (midnight : s = midnight s.year s.month s.day)
  | time {d t z : List Char} {separator : Char} (date : DateText s.year s.month s.day d)
    (separated : separator = 'T' ∨ separator = 't' ∨ separator = ' ')
    (clock : ClockText s.hour s.minute s.second s.decimals t) (zone : ZoneText s.offset z)
    (parts : cs = d ++ separator :: (t ++ z))

theorem SecondsText.digits {n : Nat} {ds cs : List Char} (h : SecondsText n ds cs) :
    ∀ c ∈ ds, c.isDigit = true := by
  cases h with
  | none => exact fun c hc => absurd hc List.not_mem_nil
  | seconds _ decimals =>
    cases decimals with
    | none => exact fun c hc => absurd hc List.not_mem_nil
    | point _ digits => exact digits

theorem Writes.digits {s : Stamp} {cs : List Char} (h : s.Writes cs) :
    ∀ c ∈ s.decimals, c.isDigit = true := by
  cases h with
  | date _ midnight =>
    rw [midnight]
    exact fun c hc => absurd hc List.not_mem_nil
  | time _ _ clock =>
    obtain ⟨-, -, seconds, -⟩ := clock
    exact seconds.digits

def NoDigit (r : List Char) : Prop := ∀ c ∈ r.head?, c.isDigit = false

variable {n m : Nat} {a b r s : List Char}

theorem digit_of_blank {c : Char} (h : isBlank c = true) : c.isDigit = false ∧ c ≠ ':' ∧ c ≠ '.' := by
  have apart : ∀ n ∈ blanks, ¬ (48 ≤ n ∧ n ≤ 57) ∧ n ≠ 58 ∧ n ≠ 46 := by decide
  obtain ⟨digit, colon, point⟩ := apart _ (List.contains_iff_mem.mp h)
  refine ⟨?_, fun same => colon (same ▸ rfl), fun same => point (same ▸ rfl)⟩
  by_contra hc
  rw [Bool.not_eq_false] at hc
  simp only [Char.isDigit, Bool.and_eq_true, decide_eq_true_eq, UInt32.le_iff_toNat_le] at hc
  exact digit hc

theorem blank_of_digit {c : Char} (h : c.isDigit = true) : isBlank c = false := by
  by_contra blank
  rw [Bool.not_eq_false] at blank
  exact absurd h (by rw [(digit_of_blank blank).1]; decide)

theorem mark_of_digit {c : Char} (h : c.isDigit = true) : isMark c = false := by
  rw [isMark, blank_of_digit h, Bool.or_false]
  by_contra colon
  simp only [Bool.not_eq_false, beq_iff_eq] at colon
  exact absurd h (colon ▸ by decide)

theorem noDigit_cons {c : Char} (h : c.isDigit = false) : NoDigit (c :: r) := by
  intro d hd
  cases hd
  exact h

theorem FieldText.unique (ha : FieldText n a) (hb : FieldText m b) (hr : NoDigit r)
    (hs : NoDigit s) (h : a ++ r = b ++ s) : n = m ∧ r = s := by
  obtain ⟨blank, digits, rfl⟩ := ha
  obtain ⟨blank', digits', rfl⟩ := hb
  rw [List.append_assoc, List.append_assoc] at h
  obtain ⟨rfl, behind⟩ := parts_unique blank blank' (fun c hc => blank_of_digit (digits.head r c hc))
    (fun c hc => blank_of_digit (digits'.head s c hc)) h
  exact digits.unique digits' hr hs behind

theorem not_blank_of_signed {negative : Bool} (signed : SignText negative a) (digits : Digits n b)
    (r : List Char) : ∀ c ∈ (a ++ (b ++ r)).head?, isBlank c = false := by
  intro c hc
  cases signed with
  | none => exact blank_of_digit (digits.head r c hc)
  | plus => cases hc; decide
  | minus => cases hc; decide

/-- Year and sign are told apart by what they begin with, so a text starts with one year. -/
theorem YearText.unique {x y : Int} (ha : YearText x a) (hb : YearText y b) (hr : NoDigit r)
    (hs : NoDigit s) (h : a ++ r = b ++ s) : x = y ∧ r = s := by
  obtain ⟨blank, signed, digits, rfl, rfl⟩ := ha
  obtain ⟨blank', signed', digits', rfl, rfl⟩ := hb
  rw [List.append_assoc, List.append_assoc, List.append_assoc, List.append_assoc] at h
  obtain ⟨rfl, behind⟩ := parts_unique blank blank' (not_blank_of_signed signed digits r)
    (not_blank_of_signed signed' digits' s) h
  obtain ⟨rfl, unsigned⟩ := parts_unique signed.all signed'.all
    (fun c hc => isSign_of_isDigit (digits.head r c hc))
    (fun c hc => isSign_of_isDigit (digits'.head s c hc)) behind
  obtain ⟨rfl, rest⟩ := digits.unique digits' hr hs unsigned
  rw [signed.functional signed']
  exact ⟨rfl, rest⟩

theorem DateText.unique {x y : Int} {mx my dx dy : Nat} (ha : DateText x mx dx a)
    (hb : DateText y my dy b) (hr : NoDigit r) (hs : NoDigit s) (h : a ++ r = b ++ s) :
    x = y ∧ mx = my ∧ dx = dy ∧ r = s := by
  obtain ⟨years, months, days, rfl⟩ := ha
  obtain ⟨years', months', days', rfl⟩ := hb
  have dash : '-'.isDigit = false := by decide
  simp only [List.append_assoc, List.cons_append] at h
  obtain ⟨year, behind⟩ := years.unique years' (noDigit_cons dash) (noDigit_cons dash) h
  obtain ⟨month, behind⟩ := months.unique months' (noDigit_cons dash) (noDigit_cons dash)
    (List.cons.inj behind).2
  obtain ⟨day, rest⟩ := days.unique days' hr hs (List.cons.inj behind).2
  exact ⟨year, month, day, rest⟩

/-- What follows does not go on with the time of day. -/
def EndsClock (r : List Char) : Prop := ∀ c ∈ r.head?, c.isDigit = false ∧ c ≠ ':' ∧ c ≠ '.'

theorem DecimalsText.unique {ds es : List Char} (ha : DecimalsText ds a) (hb : DecimalsText es b)
    (hr : EndsClock r) (hs : EndsClock s) (h : a ++ r = b ++ s) : ds = es ∧ r = s := by
  cases ha <;> cases hb
  case none.none => exact ⟨rfl, h⟩
  case none.point => exact absurd rfl (hr '.' (congrArg List.head? h)).2.2
  case point.none => exact absurd rfl (hs '.' (congrArg List.head? h.symm)).2.2
  case point.point =>
    rename_i digits _ digits'
    exact parts_unique digits digits' (fun c hc => (hr c hc).1) (fun c hc => (hs c hc).1)
      (List.cons.inj h).2

theorem DecimalsText.noDigit {ds : List Char} (ha : DecimalsText ds a) (hr : EndsClock r) :
    NoDigit (a ++ r) := by
  cases ha with
  | none => exact fun c hc => (hr c hc).1
  | point => exact noDigit_cons (by decide)

theorem SecondsText.unique {x y : Nat} {ds es : List Char} (ha : SecondsText x ds a)
    (hb : SecondsText y es b) (hr : EndsClock r) (hs : EndsClock s) (h : a ++ r = b ++ s) :
    x = y ∧ ds = es ∧ r = s := by
  cases ha <;> cases hb
  case none.none => exact ⟨rfl, rfl, h⟩
  case none.seconds => exact absurd rfl (hr ':' (congrArg List.head? h)).2.1
  case seconds.none => exact absurd rfl (hs ':' (congrArg List.head? h.symm)).2.1
  case seconds.seconds =>
    rename_i seconds decimals _ _ seconds' decimals'
    simp only [List.cons_append, List.append_assoc, List.cons.injEq, true_and] at h
    obtain ⟨second, behind⟩ := seconds.unique seconds' (decimals.noDigit hr) (decimals'.noDigit hs) h
    obtain ⟨same, rest⟩ := decimals.unique decimals' hr hs behind
    exact ⟨second, same, rest⟩

theorem SecondsText.noDigit {x : Nat} {ds : List Char} (ha : SecondsText x ds a)
    (hr : EndsClock r) : NoDigit (a ++ r) := by
  cases ha with
  | none => exact fun c hc => (hr c hc).1
  | seconds => exact noDigit_cons (by decide)

/-- A text starts with one time of day, seconds or not. -/
theorem ClockText.unique {hx hy mx my sx sy : Nat} {ds es : List Char}
    (ha : ClockText hx mx sx ds a) (hb : ClockText hy my sy es b) (hr : EndsClock r)
    (hs : EndsClock s) (h : a ++ r = b ++ s) : hx = hy ∧ mx = my ∧ sx = sy ∧ ds = es ∧ r = s := by
  obtain ⟨hours, minutes, seconds, rfl⟩ := ha
  obtain ⟨hours', minutes', seconds', rfl⟩ := hb
  have colon : ':'.isDigit = false := by decide
  simp only [List.append_assoc, List.cons_append] at h
  obtain ⟨hour, behind⟩ := hours.unique hours' (noDigit_cons colon) (noDigit_cons colon) h
  obtain ⟨minute, behind⟩ := minutes.unique minutes' (seconds.noDigit hr) (seconds'.noDigit hs)
    (List.cons.inj behind).2
  obtain ⟨second, decimals, rest⟩ := seconds.unique seconds' hr hs behind
  exact ⟨hour, minute, second, decimals, rest⟩

theorem ZoneText.endsClock {x : Int} (ha : ZoneText x a) : EndsClock a := by
  intro c hc
  cases ha with
  | none => cases hc
  | utc h =>
    cases hc
    rcases h with rfl | rfl <;> decide
  | @shifted blanks _ _ _ sign _ _ blank signed =>
    cases blanks with
    | nil =>
      cases hc
      rcases signed with rfl | rfl | rfl <;> decide
    | cons d ds =>
      cases hc
      exact digit_of_blank (blank _ List.mem_cons_self)

theorem not_blank_of_isOffsetSign {c : Char} (h : IsOffsetSign c) : isBlank c = false := by
  rcases h with rfl | rfl | rfl <;> decide

/-- A text is that of one offset only, whatever marks are in it. -/
theorem ZoneText.unique {x y : Int} (ha : ZoneText x a) (hb : ZoneText y a) : x = y := by
  cases ha with
  | none =>
    generalize same : [] = b at hb
    cases hb with
    | none => rfl
    | utc => cases same
    | shifted => simp at same
  | @utc c =>
    generalize same : [c] = b at hb
    cases hb with
    | none => cases same
    | utc => rfl
    | shifted _ _ two =>
      have length := congrArg List.length same
      simp only [List.length_append, List.length_cons, List.length_nil, two] at length
      omega
  | @shifted blanks hh marks mm sign hours minutes blank signed two hourDigits marked minuteDigits =>
    generalize same : blanks ++ sign :: (hh ++ (marks ++ mm)) = b at hb
    cases hb with
    | none => simp at same
    | utc =>
      have length := congrArg List.length same
      simp only [List.length_append, List.length_cons, List.length_nil, two] at length
      omega
    | shifted blank' signed' two' hourDigits' marked' minuteDigits' =>
      obtain ⟨rfl, behind⟩ := parts_unique blank blank'
        (fun c hc => by cases hc; exact not_blank_of_isOffsetSign signed)
        (fun c hc => by cases hc; exact not_blank_of_isOffsetSign signed') same
      obtain ⟨rfl, unsigned⟩ := List.cons.inj behind
      obtain ⟨rfl, rest⟩ := List.append_inj unsigned (two.trans two'.symm)
      obtain ⟨rfl, rfl⟩ := parts_unique marked marked'
        (fun c hc => mark_of_digit (minuteDigits.head [] c (by simpa using hc)))
        (fun c hc => mark_of_digit (minuteDigits'.head [] c (by simpa using hc))) rest
      rw [← hourDigits.value, ← minuteDigits.value, hourDigits'.value, minuteDigits'.value]

theorem noDigit_of_separated {c : Char} (h : c = 'T' ∨ c = 't' ∨ c = ' ') : NoDigit (c :: r) := by
  rcases h with rfl | rfl | rfl <;> exact noDigit_cons (by decide)

/-- A text writes one date-time at most. -/
theorem Writes.unique {s t : Stamp} {cs : List Char} (hs : s.Writes cs) (ht : t.Writes cs) :
    s = t := by
  have end_ : NoDigit [] := fun c hc => by cases hc
  cases hs with
  | date date midnight =>
    cases ht with
    | date date' midnight' =>
      obtain ⟨year, month, day, -⟩ := date.unique date' end_ end_ rfl
      rw [midnight, midnight', year, month, day]
    | time date' separated clock zone parts =>
      obtain ⟨-, -, -, rest⟩ := date.unique date' end_ (noDigit_of_separated separated)
        ((List.append_nil cs).trans parts)
      cases rest
  | time date separated clock zone parts =>
    cases ht with
    | date date' midnight' =>
      obtain ⟨-, -, -, rest⟩ := date'.unique date end_ (noDigit_of_separated separated)
        ((List.append_nil cs).trans parts)
      cases rest
    | time date' separated' clock' zone' parts' =>
      obtain ⟨year, month, day, behind⟩ := date.unique date' (noDigit_of_separated separated)
        (noDigit_of_separated separated') (parts.symm.trans parts')
      obtain ⟨hour, minute, second, decimals, rfl⟩ := clock.unique clock' zone.endsClock
        zone'.endsClock (List.cons.inj behind).2
      have offset := zone.unique zone'
      cases s
      cases t
      simp_all

end Stamp

end EntityFilter.Calendar

import EntityFilter.Text.Numeral

namespace EntityFilter

def isLeapYear (year : Int) : Bool :=
  year % 4 == 0 && (year % 100 != 0 || year % 400 == 0)

def daysInMonth (year : Int) : Nat → Nat
  | 2 => if isLeapYear year then 29 else 28
  | 4 | 6 | 9 | 11 => 30
  | _ => 31

/-- A date of the proleptic Gregorian calendar. The year before year one is year zero. -/
structure Date where
  year : Int
  month : Nat
  day : Nat
  year_ge : -262143 ≤ year
  year_le : year ≤ 262142
  month_ge : 1 ≤ month
  month_le : month ≤ 12
  day_ge : 1 ≤ day
  day_le : day ≤ daysInMonth year month
deriving DecidableEq, Repr

namespace Date

def ofFields? (year : Int) (month day : Nat) : Option Date :=
  if h : (-262143 ≤ year ∧ year ≤ 262142) ∧ (1 ≤ month ∧ month ≤ 12) ∧
      1 ≤ day ∧ day ≤ daysInMonth year month then
    some ⟨year, month, day, h.1.1, h.1.2, h.2.1.1, h.2.1.2, h.2.2.1, h.2.2.2⟩
  else none

def order (a b : Date) : Ordering :=
  (compare a.year b.year).then ((compare a.month b.month).then (compare a.day b.day))

def next? (d : Date) : Option Date :=
  if d.day < daysInMonth d.year d.month then ofFields? d.year d.month (d.day + 1)
  else if d.month < 12 then ofFields? d.year (d.month + 1) 1
  else ofFields? (d.year + 1) 1 1

def previous? (d : Date) : Option Date :=
  if 1 < d.day then ofFields? d.year d.month (d.day - 1)
  else if 1 < d.month then ofFields? d.year (d.month - 1) (daysInMonth d.year (d.month - 1))
  else ofFields? (d.year - 1) 12 31

/-- A year of four digits has no sign, any other has one. -/
def yearText (year : Int) : String :=
  let digits := Text.padded 4 year.natAbs
  if 0 ≤ year ∧ year ≤ 9999 then digits else (if year < 0 then "-" else "+") ++ digits

def text (d : Date) : String :=
  yearText d.year ++ "-" ++ Text.padded 2 d.month ++ "-" ++ Text.padded 2 d.day

theorem ofFields?_fields (d : Date) : ofFields? d.year d.month d.day = some d := by
  simp [ofFields?, d.year_ge, d.year_le, d.month_ge, d.month_le, d.day_ge, d.day_le]

theorem order_self (d : Date) : d.order d = .eq := by
  simp [order, Ordering.then]

end Date

end EntityFilter

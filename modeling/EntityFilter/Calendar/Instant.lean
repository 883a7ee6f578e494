import EntityFilter.Calendar.Date

namespace EntityFilter

/-- An instant in UTC: a date, the second of the day, and the nanosecond of that second. In a leap
second the nanoseconds go on past the end of the second before it. -/
structure Instant where
  date : Date
  second : Nat
  nanosecond : Nat
deriving DecidableEq, Repr

namespace Instant

def midnight (date : Date) : Instant := ⟨date, 0, 0⟩

def secondsPerDay : Nat := 86400

def nanosecondsPerSecond : Nat := 1000000000

def order (a b : Instant) : Ordering :=
  (a.date.order b.date).then
    ((compare a.second b.second).then (compare a.nanosecond b.nanosecond))

/-- The instant that clocks `offset` seconds ahead of UTC show as the given one. The offset is less
than a day, so the date moves by one day at most; there is none past the last date. -/
def atOffset? (local_ : Instant) (offset : Int) : Option Instant :=
  let s := (local_.second : Int) - offset
  if s < 0 then
    local_.date.previous?.map fun d => ⟨d, (s + secondsPerDay).toNat, local_.nanosecond⟩
  else if s < secondsPerDay then some { local_ with second := s.toNat }
  else local_.date.next?.map fun d => ⟨d, (s - secondsPerDay).toNat, local_.nanosecond⟩

/-- As many decimals as are needed, in groups of three. -/
def fractionText (nanosecond : Nat) : String :=
  if nanosecond = 0 then ""
  else if nanosecond % 1000000 = 0 then "." ++ Text.padded 3 (nanosecond / 1000000)
  else if nanosecond % 1000 = 0 then "." ++ Text.padded 6 (nanosecond / 1000)
  else "." ++ Text.padded 9 nanosecond

def timeText (second nanosecond : Nat) : String :=
  let leap := nanosecond / nanosecondsPerSecond
  Text.padded 2 (second / 3600) ++ ":" ++ Text.padded 2 (second / 60 % 60) ++ ":" ++
    Text.padded 2 (second % 60 + leap) ++ fractionText (nanosecond % nanosecondsPerSecond)

def text (t : Instant) : String :=
  t.date.text ++ "T" ++ timeText t.second t.nanosecond ++ "Z"

theorem order_self (t : Instant) : t.order t = .eq := by
  simp [order, Date.order_self, Ordering.then]

theorem atOffset?_zero {t : Instant} (h : t.second < secondsPerDay) : t.atOffset? 0 = some t := by
  have h' : ((t.second : Int) < secondsPerDay) := by exact_mod_cast h
  have h0 : ¬ ((t.second : Int) < 0) := by omega
  simp [atOffset?, h', h0]

end Instant

end EntityFilter

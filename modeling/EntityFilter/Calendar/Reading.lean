import EntityFilter.Text.Blank
import EntityFilter.Calendar.Instant

namespace EntityFilter.Calendar

open Text

/-- Why a date cannot be read. -/
inductive DateFault where
  | invalid
  | short
  | trailing
  | range
deriving DecidableEq, Repr

def DateFault.message : DateFault → String
  | .invalid => "input contains invalid characters"
  | .short => "premature end of input"
  | .trailing => "trailing input"
  | .range => "input is out of range"

abbrev Reader (α : Type) := List Char → Except DateFault (α × List Char)

def literal (c : Char) : Reader Unit
  | [] => .error .short
  | d :: cs => if d = c then .ok ((), cs) else .error .invalid

/-- Leading digits, at most `width` of them where there is a width. -/
def digits (width : Option Nat) : Reader Nat
  | [] => .error .short
  | c :: cs =>
    let ds := ((width.elim (c :: cs) (c :: cs).take)).takeWhile Char.isDigit
    if ds = [] then .error .invalid else .ok (natOfDigits ds, (c :: cs).drop ds.length)

/-- A field of one or two digits, after white space. -/
def field (low high : Nat) : Reader Nat := fun cs => do
  let (n, cs) ← digits (some 2) (trimBlanks cs)
  if low ≤ n ∧ n ≤ high then .ok (n, cs) else .error .range

/-- Four digits, or a sign and any number of them. -/
def year : Reader Int := fun cs => do
  let (y, cs) ← match trimBlanks cs with
    | '-' :: cs => (digits none cs).map fun (n, cs) => (-(n : Int), cs)
    | '+' :: cs => (digits none cs).map fun (n, cs) => ((n : Int), cs)
    | cs => (digits (some 4) cs).map fun (n, cs) => ((n : Int), cs)
  if fitsWord 32 y then .ok (y, cs) else .error .range

/-- The year, month and day of a date, with a `-` between them. -/
def dateFields : Reader (Int × Nat × Nat) := fun cs => do
  let (y, cs) ← year cs
  let ((), cs) ← literal '-' cs
  let (m, cs) ← field 1 12 cs
  let ((), cs) ← literal '-' cs
  let (d, cs) ← field 1 31 cs
  .ok ((y, m, d), cs)

def finished : List Char → Except DateFault Unit
  | [] => .ok ()
  | _ :: _ => .error .trailing

/-- What is left over is found before a date that does not exist. -/
def date (cs : List Char) : Except DateFault Date := do
  let ((y, m, d), cs) ← dateFields cs
  finished cs
  ((Date.ofFields? y m d).map Except.ok).getD (.error .range)

/-- Clock fields as written: second 60 is a leap second. -/
structure Clock where
  hour : Nat
  minute : Nat
  second : Nat
  nanosecond : Nat

def Clock.on (c : Clock) (date : Date) : Instant :=
  ⟨date, c.hour * 3600 + c.minute * 60 + min c.second 59,
    c.nanosecond + (if c.second = 60 then Instant.nanosecondsPerSecond else 0)⟩

/-- The nanoseconds that the decimals of a second make. Those past the ninth are dropped. -/
def nanosecondsOf (ds : List Char) : Nat :=
  natOfDigits (ds.take 9) * placeValue (9 - (ds.take 9).length)

def fraction : Reader Nat
  | '.' :: cs =>
    let ds := cs.takeWhile Char.isDigit
    if ds = [] then .error .invalid else .ok (nanosecondsOf ds, cs.drop ds.length)
  | cs => .ok (0, cs)

/-- Exactly as many digits as are asked for. -/
def exactly (width : Nat) (low high : Nat) : Reader Nat := fun cs =>
  let ds := cs.take width
  if ds.length = width ∧ ds.all Char.isDigit then
    let n := natOfDigits ds
    if low ≤ n ∧ n ≤ high then .ok (n, cs.drop width) else .error .range
  else .error .invalid

/-- A signed offset in seconds: two digits for the hours, what `mark` passes over, two for the
minutes. The minus sign of typography counts as a minus. -/
def signedOffset (mark : Reader Unit) : Reader Int
  | [] => .error .short
  | c :: cs =>
    if c = '+' ∨ c = '-' ∨ c = '−' then do
      let (h, cs) ← exactly 2 0 99 cs
      let ((), cs) ← mark cs
      let (m, cs) ← exactly 2 0 59 cs
      let n : Int := (h * 3600 + m * 60 : Nat)
      .ok (if c = '+' then n else -n, cs)
    else .error .invalid

def within (limit : Int) (read : Reader Int) : Reader Int := fun cs => do
  let (n, cs) ← read cs
  if -limit ≤ n ∧ n ≤ limit then .ok (n, cs) else .error .range

def strictOffset : Reader Int
  | 'Z' :: cs | 'z' :: cs => .ok (0, cs)
  | cs => within ((23 * 60 + 59) * 60) (signedOffset (literal ':')) cs

def looseOffset : Reader Int := fun cs =>
  within (Instant.secondsPerDay - 1)
    (signedOffset fun cs => .ok ((), cs.dropWhile fun c => c == ':' || isBlank c)) (trimBlanks cs)

def instantOf? (fields : Int × Nat × Nat) (clock : Clock) (offset : Int) : Option Instant :=
  (Date.ofFields? fields.1 fields.2.1 fields.2.2).bind fun d => (clock.on d).atOffset? offset

def strictSeparator : Reader Unit
  | 'T' :: cs | 't' :: cs | ' ' :: cs => .ok ((), cs)
  | _ => .error .invalid

/-- The strict form of RFC 3339. -/
def strictForm (cs : List Char) : Except DateFault (Option Instant) := do
  let (y, cs) ← exactly 4 0 9999 cs
  let ((), cs) ← literal '-' cs
  let (m, cs) ← exactly 2 1 12 cs
  let ((), cs) ← literal '-' cs
  let (d, cs) ← exactly 2 1 31 cs
  let ((), cs) ← strictSeparator cs
  let (hour, cs) ← exactly 2 0 23 cs
  let ((), cs) ← literal ':' cs
  let (minute, cs) ← exactly 2 0 59 cs
  let ((), cs) ← literal ':' cs
  let (second, cs) ← exactly 2 0 60 cs
  let (nanosecond, cs) ← fraction cs
  let (offset, cs) ← strictOffset cs
  finished cs
  .ok (instantOf? (y, m, d) ⟨hour, minute, second, nanosecond⟩ offset)

def minutes : Reader Clock := fun cs => do
  let (hour, cs) ← field 0 23 cs
  let ((), cs) ← literal ':' cs
  let (minute, cs) ← field 0 59 cs
  .ok (⟨hour, minute, 0, 0⟩, cs)

def seconds : Reader Clock := fun cs => do
  let (clock, cs) ← minutes cs
  let ((), cs) ← literal ':' cs
  let (second, cs) ← field 0 60 cs
  let (nanosecond, cs) ← fraction cs
  .ok ({ clock with second, nanosecond }, cs)

/-- Unpadded fields, each with white space before it. -/
def looseForm (clock : Reader Clock) (offset : Reader Int) (cs : List Char) :
    Except DateFault (Option Instant) := do
  let (fields, cs) ← dateFields cs
  let ((), cs) ← literal 'T' cs
  let (clock, cs) ← clock cs
  let (offset, cs) ← offset cs
  finished cs
  .ok (instantOf? fields clock offset)

def noOffset : Reader Int := fun cs => .ok (0, cs)

/-- The text without one final `Z`. -/
def withoutZone (cs : List Char) : List Char :=
  if cs.getLast? = some 'Z' then cs.dropLast else cs

/-- Reads an instant by the strict form or, where that fails, by looser ones: seconds may be left
out, and an offset may have no colon or be missing. A date alone is the start of its day in UTC. -/
def readInstant? (cs : List Char) : Option Instant :=
  let forms := [
    strictForm cs,
    looseForm seconds looseOffset cs,
    looseForm minutes looseOffset cs,
    looseForm seconds noOffset (withoutZone cs),
    looseForm minutes noOffset (withoutZone cs),
    (date cs).map fun d => some (.midnight d)]
  forms.findSome? fun form => form.toOption.join

end EntityFilter.Calendar

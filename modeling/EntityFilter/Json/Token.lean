import EntityFilter.Text.ByteLength
import EntityFilter.Json.Value

namespace EntityFilter

/-- Why a text cannot be read: it is not JSON, it ends too early, or it is JSON of another shape. -/
inductive JsonFault where
  | malformed
  | truncated
  | unfit
deriving DecidableEq, Repr

/-- What was begun where a text stops being JSON. -/
inductive BrokenKind where
  | nothing
  | string
  | other
deriving DecidableEq, Repr

structure Broken where
  kind : BrokenKind
  /-- The fault for a reader that wants the value. -/
  wanted : JsonFault
  /-- The fault for a reader that skips it. -/
  skipped : JsonFault
deriving DecidableEq, Repr

/-- A number as written. -/
structure NumberText where
  negative : Bool
  whole : List Char
  fraction : Option (List Char)
  power : Option Int
deriving DecidableEq, Repr

/-- Tokens of a JSON text. A reader that skips a value is content with less than one that wants it:
it does not mind a number that no double holds, or half of a surrogate pair. So a token that is
broken has two faults, and a number or string that is whole may still have no value. -/
inductive JsonToken where
  | openArray
  | closeArray
  | openObject
  | closeObject
  | comma
  | colon
  | null
  | bool (b : Bool)
  | number (n : NumberText)
  | string (text : Except JsonFault String)
  | broken (b : Broken)

namespace NumberText

/-- Reads digits on from `n` as long as a word of 64 bits holds the number. -/
def accumulate (n : Nat) : List Char → Nat × List Char
  | [] => (n, [])
  | c :: cs =>
    let m := n * 10 + Text.digitValue c
    if m < 0x10000000000000000 then accumulate m cs else (n, c :: cs)

/-- A magnitude divided by ten to the `n`, in steps that a double can hold. -/
def loweredWithin : Nat → Nat → Nat → Nat
  | 0, _, _ => 0
  | fuel + 1, m, n =>
    if n ≤ 308 then Double.dividedBy m (Double.nearestDecimal 1 n)
    else loweredWithin fuel (Double.dividedBy m (Double.nearestDecimal 1 308)) (n - 308)

/-- Three steps take every word below the least double. -/
def lowered (m n : Nat) : Nat := loweredWithin 3 m n

def raised? (m n : Nat) : Option Nat :=
  if m = 0 then some 0
  else if 308 < n then none
  else
    let r := Double.times m (Double.nearestDecimal 1 n)
    if r < Double.infinity then some r else none

/-- `n * 10 ^ e`, rounded once for `n` and once more for the power. -/
def scaled? (n : Nat) (e : Int) : Option Nat :=
  let m := Double.nearest n 1
  if 0 ≤ e then raised? m e.toNat else some (lowered m e.natAbs)

def integerOrDouble (negative : Bool) (n : Nat) : JsonNumber :=
  if negative then
    if n = 0 ∨ ¬ Text.fitsWord 64 (-n) then .double ⟨true, Double.nearest n 1⟩ else .integer (-n)
  else .integer n

/-- The digits that a word holds, with those left out of the whole part counted into the exponent.
There is no value where it would be too large for a double. -/
def value? (t : NumberText) : Option JsonNumber :=
  let (n, left) := accumulate 0 t.whole
  if left.isEmpty && t.fraction.isNone && t.power.isNone then some (integerOrDouble t.negative n)
  else
    let fraction := t.fraction.getD []
    let (n, unread) := accumulate n fraction
    let places : Int := (fraction.length : Int) - unread.length
    (scaled? n (left.length - places + t.power.getD 0)).map fun m => .double ⟨t.negative, m⟩

end NumberText

namespace JsonToken

/-- The token at the start of a text, and what follows it. -/
abbrev Scan : Type := JsonToken × List Char

def stopped (kind : BrokenKind) (wanted skipped : JsonFault) : Scan :=
  (.broken ⟨kind, wanted, skipped⟩, [])

/-- Reads the rest of a word. -/
def scanWord (t : JsonToken) : List Char → List Char → Scan
  | [], cs => (t, cs)
  | _ :: _, [] => stopped .other .truncated .truncated
  | w :: ws, c :: cs => if w = c then scanWord t ws cs else stopped .other .malformed .malformed

/-- A digit is missing in front of the text. A reader that skips the number does not care why. -/
def noDigit : List Char → Scan
  | [] => stopped .other .truncated .malformed
  | _ :: _ => stopped .other .malformed .malformed

def signOf : List Char → Bool × List Char
  | '-' :: cs => (true, cs)
  | '+' :: cs => (false, cs)
  | cs => (false, cs)

def scanPower (n : NumberText) : List Char → Scan
  | [] => (.number n, [])
  | c :: cs =>
    if c = 'e' ∨ c = 'E' then
      let (negative, cs) := signOf cs
      let (ds, rest) := cs.span Char.isDigit
      if ds.isEmpty then noDigit rest
      else
        let e : Int := Text.natOfDigits ds
        (.number { n with power := some (if negative then -e else e) }, rest)
    else (.number n, c :: cs)

def scanFraction (n : NumberText) : List Char → Scan
  | '.' :: cs =>
    let (ds, rest) := cs.span Char.isDigit
    if ds.isEmpty then noDigit rest else scanPower { n with fraction := some ds } rest
  | cs => scanPower n cs

/-- A whole part does not begin with a zero unless it is zero. -/
def scanNumber (negative : Bool) (cs : List Char) : Scan :=
  let (ds, rest) := cs.span Char.isDigit
  match ds with
  | [] => noDigit rest
  | '0' :: _ :: _ => stopped .other .malformed .malformed
  | ds => scanFraction ⟨negative, ds, none, none⟩ rest

/-- What a string is made of: characters, and code units of UTF-16 that stand for one together with
their neighbour. -/
inductive Piece where
  | char (c : Char)
  | surrogate (high : Bool) (bits : Nat)
deriving DecidableEq, Repr

inductive StringEnd where
  | closed (rest : List Char)
  | fault (f : JsonFault)

def hexValue? (c : Char) : Option Nat :=
  if c.isDigit then some (c.toNat - '0'.toNat)
  else if 'a' ≤ c ∧ c ≤ 'f' then some (c.toNat - 'a'.toNat + 10)
  else if 'A' ≤ c ∧ c ≤ 'F' then some (c.toNat - 'A'.toNat + 10)
  else none

def codeUnit? (a b c d : Char) : Option Nat := do
  let a ← hexValue? a
  let b ← hexValue? b
  let c ← hexValue? c
  let d ← hexValue? d
  some (((a * 16 + b) * 16 + c) * 16 + d)

def Piece.ofCodeUnit (n : Nat) : Piece :=
  if 0xD800 ≤ n ∧ n < 0xDC00 then .surrogate true (n - 0xD800)
  else if 0xDC00 ≤ n ∧ n < 0xE000 then .surrogate false (n - 0xDC00)
  else .char (Char.ofNat n)

def unescape? : Char → Option Char
  | '"' => some '"'
  | '\\' => some '\\'
  | '/' => some '/'
  | 'b' => some '\x08'
  | 'f' => some '\x0c'
  | 'n' => some '\n'
  | 'r' => some '\r'
  | 't' => some '\t'
  | _ => none

/-- Four digits are bytes: what has fewer characters may still be as long. -/
def shortCode (cs : List Char) : JsonFault :=
  if Text.byteLength cs < 4 then .truncated else .malformed

/-- Reads behind the opening quote. -/
def pieces : List Char → List Piece × StringEnd
  | [] => ([], .fault .truncated)
  | c :: cs =>
    if c = '"' then ([], .closed cs)
    else if c = '\\' then
      match cs with
      | [] => ([], .fault .truncated)
      | e :: es =>
        if e = 'u' then
          match es with
          | w :: x :: y :: z :: rest =>
            match codeUnit? w x y z with
            | some n =>
              let (ps, stop) := pieces rest
              (.ofCodeUnit n :: ps, stop)
            | none => ([], .fault .malformed)
          | short => ([], .fault (shortCode short))
        else
          match unescape? e with
          | some d =>
            let (ps, stop) := pieces es
            (.char d :: ps, stop)
          | none => ([], .fault .malformed)
    else if c.toNat < 0x20 then ([], .fault .malformed)
    else
      let (ps, stop) := pieces cs
      (.char c :: ps, stop)

/-- The characters that pieces make, which fails with `unpaired` if they end in half a pair. -/
def joinPieces (unpaired : JsonFault) : List Piece → Except JsonFault (List Char)
  | [] => .ok []
  | .char c :: ps => (joinPieces unpaired ps).map (c :: ·)
  | .surrogate false _ :: _ => .error .malformed
  | [.surrogate true _] => .error unpaired
  | .surrogate true high :: .surrogate false low :: ps =>
    (joinPieces unpaired ps).map (Char.ofNat (0x10000 + high * 0x400 + low) :: ·)
  | .surrogate true _ :: _ :: _ => .error .malformed

def scanString (cs : List Char) : Scan :=
  match pieces cs with
  | (ps, .closed rest) => (.string ((joinPieces .malformed ps).map String.ofList), rest)
  | (ps, .fault f) =>
    match joinPieces f ps with
    | .ok _ => stopped .string f f
    | .error g => stopped .string g f

def isSpace (c : Char) : Bool := c == ' ' || c == '\n' || c == '\t' || c == '\r'

def scan (c : Char) (cs : List Char) : Scan :=
  match c with
  | '[' => (.openArray, cs)
  | ']' => (.closeArray, cs)
  | '\x7b' => (.openObject, cs)
  | '\x7d' => (.closeObject, cs)
  | ',' => (.comma, cs)
  | ':' => (.colon, cs)
  | 'n' => scanWord .null ['u', 'l', 'l'] cs
  | 't' => scanWord (.bool true) ['r', 'u', 'e'] cs
  | 'f' => scanWord (.bool false) ['a', 'l', 's', 'e'] cs
  | '"' => scanString cs
  | '-' => scanNumber true cs
  | c => if c.isDigit then scanNumber false (c :: cs) else stopped .other .malformed .malformed

def tokensWithin : Nat → List Char → List JsonToken
  | 0, _ => []
  | n + 1, cs =>
    match cs.dropWhile isSpace with
    | [] => []
    | c :: cs =>
      let (t, rest) := scan c cs
      t :: tokensWithin n rest

/-- The tokens of a text up to the first broken one. Each takes a character at least. -/
def tokens (cs : List Char) : List JsonToken := tokensWithin cs.length cs

end JsonToken

end EntityFilter

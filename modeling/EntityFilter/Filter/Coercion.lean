import EntityFilter.Query.Literal
import EntityFilter.Model.Attribute
import EntityFilter.Filter.LikePattern

namespace EntityFilter

/-- A literal that cannot be read as what is expected. -/
structure CoercionError where
  text : String
  expected : String
  reason : String
deriving DecidableEq, Repr

def CoercionError.message (e : CoercionError) : String :=
  s!"cannot read '{e.text}' as {e.expected}: {e.reason}"

namespace Value

abbrev Coerced : Type := Except CoercionError Value

def orRefuse (l : Literal) (expected reason : String) : Option Value → Coerced
  | some v => .ok v
  | none => .error ⟨l.text, expected, reason⟩

def integerOf? (s : String) : Option Value := (Text.wordOf? 32 s.toList).map integer

def longOf? (s : String) : Option Value := (Text.wordOf? 64 s.toList).map long

def doubleOf? (s : String) : Option Value :=
  ((Double.ofText? s.toList).filter (·.isFinite)).map double

def decimalOf? (s : String) : Option Value :=
  ((Decimal.ofText? s.toList).or (Decimal.ofScientific? s.toList)).map decimal

def instantOf? (s : String) : Option Value := (Calendar.readInstant? s.toList).map instant

/-- Letters may have either case. -/
def booleanOf? (s : String) : Option Value :=
  match String.ofList (s.toList.map Char.toLower) with
  | "true" => some (boolean true)
  | "false" => some (boolean false)
  | _ => none

def ofLong (l : Literal) : Coerced := orRefuse l "long" "not a 64-bit integer" (longOf? l.text)

def ofDouble (l : Literal) : Coerced := orRefuse l "double" "not a finite number" (doubleOf? l.text)

/-- A number: `plain` is how it is read without a suffix. -/
def ofNumber (l : Literal) (plain : Literal → Coerced) : Coerced :=
  match l.suffix with
  | some .long => ofLong l
  | some .double => ofDouble l
  | none => plain l

def unsuffixed (l : Literal) (type : AttributeType) (plain : Coerced) : Coerced :=
  match l.suffix with
  | some s => .error ⟨l.text, type.display, s!"type suffix '{s.char}' only applies to numbers"⟩
  | none => plain

def ofDate (l : Literal) : Coerced :=
  if l.text.toList.contains 'T' then
    .error ⟨l.text, AttributeType.date.display, "a date-time would lose its time of day"⟩
  else
    match Calendar.date l.text.toList with
    | .ok d => .ok (date d)
    | .error e => .error ⟨l.text, AttributeType.date.display, e.message⟩

/-- A literal as a value. The declared type decides how it is read, except that a suffix on a number
is taken at its word, even where that makes the value one of another type. -/
def ofLiteral (l : Literal) (type : AttributeType) : Coerced :=
  match type with
  | .string => .ok (string l.verbatim)
  | .integer =>
    ofNumber l fun l => orRefuse l type.display "not a 32-bit integer" (integerOf? l.text)
  | .long => ofNumber l ofLong
  | .double => ofNumber l ofDouble
  | .decimal =>
    ofNumber l fun l => orRefuse l type.display "not a decimal number" (decimalOf? l.text)
  | .boolean =>
    unsuffixed l type (orRefuse l type.display "expected 'true' or 'false'" (booleanOf? l.text))
  | .date => unsuffixed l type (ofDate l)
  | .dateTime =>
    unsuffixed l type
      (orRefuse l type.display "not an ISO-8601 date or date-time" (instantOf? l.text))
  | .enumeration name variants =>
    unsuffixed l type
      (if variants.contains l.text then .ok (constant l.text)
        else .error ⟨l.text, type.display, s!"no constant of {name} is named '{l.text}'"⟩)
  | .entity _ => .error ⟨l.text, type.display, "entities cannot be written as literals"⟩

/-- A literal as the size of a collection. A suffix for long numbers is kept. -/
def ofCount (l : Literal) : Coerced :=
  let refuse (reason : String) : Coerced := .error ⟨l.text, "a collection size", reason⟩
  match Text.wordOf? 64 l.text.toList, l.suffix with
  | none, _ => refuse "not an integral number"
  | some n, some .long => .ok (long n)
  | some _, some .double => refuse "a size cannot be a double"
  | some n, none =>
    if Text.fitsWord 32 n then .ok (integer n) else refuse "out of range for an integer"

end Value

namespace LikePattern

/-- In a literal only `*` is special. -/
def globItem (c : Char) : LikeItem := if c = '*' then .run else .char c

def ofGlob (cs : List Char) : LikePattern := ⟨String.ofList (LikeItem.pattern (cs.map globItem))⟩

def trimStars (cs : List Char) : List Char :=
  ((cs.dropWhile (· == '*')).reverse.dropWhile (· == '*')).reverse

/-- Any text that has a part matching the glob. Stars at its ends say nothing more. -/
def containing (cs : List Char) : LikePattern :=
  let core := trimStars cs
  if core.isEmpty then ofGlob ['*'] else ofGlob ('*' :: core ++ ['*'])

/-- The pattern that equality with a literal asks for, or none where it asks for the very text. -/
def ofLiteral? (l : Literal) (always : Bool) : Option LikePattern :=
  let cs := l.verbatim.toList
  if always then some (containing cs)
  else if l.hasWildcard then some (ofGlob cs)
  else none

end LikePattern

end EntityFilter

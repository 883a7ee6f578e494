import EntityFilter.Calendar.Reading
import EntityFilter.Number.Decimal
import EntityFilter.Number.Shortest

namespace EntityFilter

/-- What a literal or a field of a record holds once its type is known. -/
inductive Value where
  /-- A whole number of 32 bits. -/
  | integer (n : Int)
  /-- A whole number of 64 bits. -/
  | long (n : Int)
  | double (x : Double)
  | decimal (d : Decimal)
  | string (s : String)
  | boolean (b : Bool)
  | date (d : Date)
  | instant (t : Instant)
  | constant (name : String)
deriving DecidableEq, Repr

namespace Value

def typeName : Value → String
  | integer _ => "integer"
  | long _ => "long"
  | double _ => "double"
  | decimal _ => "decimal"
  | string _ => "string"
  | boolean _ => "boolean"
  | date _ => "date"
  | instant _ => "date-time"
  | constant _ => "enum"

def asString? : Value → Option String
  | string s | constant s => some s
  | _ => none

/-- Doubles in a predicate: of two equally near decimals the greater is written. -/
def doubleLayout : DoubleLayout := ⟨-4, false, .up⟩

/-- Text in quotes, with a `\` in front of a quote inside. -/
def quoted (s : String) : String :=
  String.ofList ('\'' :: (s.toList.flatMap fun c => if c = '\'' then ['\\', c] else [c]) ++ ['\''])

def display : Value → String
  | integer n => toString n
  | long n => toString n ++ "L"
  | double x => x.text doubleLayout ++ "D"
  | decimal d => d.text
  | string s => quoted s
  | boolean b => if b then "true" else "false"
  | date d => d.text
  | instant t => t.text
  | constant name => name

/-- Equality of what values stand for: `1.0` is `1.00`, and zero is minus zero. -/
def same : Value → Value → Bool
  | double x, double y => x.same y
  | decimal x, decimal y => x.same y
  | v, w => v == w

/-- How two values of one type are ordered. Values of different types are not compared at all, and
what is not a number has no place in the order of doubles. -/
def order? : Value → Value → Option (Option Ordering)
  | integer a, integer b => some (some (compare a b))
  | long a, long b => some (some (compare a b))
  | double a, double b => some (a.compare? b)
  | decimal a, decimal b => some (some (a.order b))
  | string a, string b => some (some (compare a b))
  | boolean a, boolean b => some (some (compare a b))
  | date a, date b => some (some (a.order b))
  | instant a, instant b => some (some (a.order b))
  | constant a, constant b => some (some (compare a b))
  | _, _ => none

end Value

end EntityFilter

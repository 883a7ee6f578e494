import EntityFilter.Number.Shortest

namespace EntityFilter

/-- Whole numbers that a machine word of 64 bits holds, signed or not, are kept apart from doubles.
-/
inductive JsonNumber where
  | integer (n : Int)
  | double (x : Double)
deriving DecidableEq, Repr

namespace JsonNumber

/-- A whole number that a signed word holds. -/
def long? : JsonNumber → Option Int
  | integer n => if Text.fitsWord 64 n then some n else none
  | double _ => none

def toDouble : JsonNumber → Double
  | integer n => .ofInt n
  | double x => x

/-- Doubles in a document: a half-way digit is even, and an exponent has its sign. -/
def layout : DoubleLayout := ⟨-5, true, .even⟩

def text : JsonNumber → String
  | integer n => toString n
  | double x => x.text layout

end JsonNumber

/-- A JSON value. The fields of an object are sorted by name. -/
inductive Json where
  | null
  | bool (b : Bool)
  | number (n : JsonNumber)
  | string (s : String)
  | array (items : List Json)
  | object (fields : List (String × Json))
deriving Repr

namespace Json

/-- The field of that name, if the value is an object that has it. -/
def get? (name : String) : Json → Option Json
  | object fields => (fields.find? (·.1 == name)).map (·.2)
  | _ => none

def isNull : Json → Bool
  | null => true
  | _ => false

end Json

end EntityFilter

namespace EntityFilter

/-- The declared type of an attribute. -/
inductive AttributeType where
  | string
  | integer
  | long
  | double
  | decimal
  | boolean
  | date
  /-- An instant, compared in UTC. -/
  | dateTime
  /-- Symbolic constants. -/
  | enumeration (name : String) (variants : List String)
  /-- A reference to another entity. -/
  | entity (name : String)
deriving DecidableEq, Repr

namespace AttributeType

def display : AttributeType → String
  | string => "string"
  | integer => "integer"
  | long => "long"
  | double => "double"
  | decimal => "decimal"
  | boolean => "boolean"
  | date => "date"
  | dateTime => "date-time"
  | enumeration name _ => s!"enum {name}"
  | entity name => s!"entity {name}"

/-- A collection of values of the type. -/
def collectionText (t : AttributeType) : String := s!"a collection of {t.display}"

/-- The entity that a selector goes on to past an attribute of the type. -/
def entityName? : AttributeType → Option String
  | entity name => some name
  | _ => none

def isEntity (t : AttributeType) : Bool := t.entityName?.isSome

def isNumeric : AttributeType → Bool
  | integer | long | double | decimal => true
  | _ => false

/-- Whether values of the type have an order that filters may ask for. -/
def isOrdered : AttributeType → Bool
  | string | date | dateTime => true
  | t => t.isNumeric

end AttributeType

inductive Multiplicity where
  | single
  | collection
deriving DecidableEq, Repr

def Multiplicity.name : Multiplicity → String
  | single => "single"
  | collection => "collection"

structure Attribute where
  name : String
  /-- Of a collection, the type of its elements. -/
  type : AttributeType
  multiplicity : Multiplicity
deriving DecidableEq, Repr

namespace Attribute

def isCollection (a : Attribute) : Bool := a.multiplicity == .collection

def isTraversable (a : Attribute) : Bool := a.type.isEntity

/-- The declared type, with the multiplicity in front. -/
def typeText (a : Attribute) : String :=
  if a.isCollection then a.type.collectionText else a.type.display

end Attribute

/-- What selectors are followed through: the attributes of entities, by name. -/
structure AttributeGraph where
  attribute? (entity name : String) : Option Attribute
  containsEntity : String → Bool

end EntityFilter

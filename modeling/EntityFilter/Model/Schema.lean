import EntityFilter.Table
import EntityFilter.Model.Attribute

namespace EntityFilter

structure EntityType where
  name : String
  attributes : List Attribute
deriving DecidableEq, Repr

namespace EntityType

def declare (e : EntityType) (a : Attribute) : EntityType :=
  { e with attributes := e.attributes ++ [a] }

/-- Of equally named attributes the first counts. -/
def attribute? (e : EntityType) (name : String) : Option Attribute :=
  e.attributes.find? (·.name == name)

end EntityType

/-- The registered entities, sorted by name, with their attributes in the order of declaration. -/
structure Schema where
  table : Table (List Attribute)
deriving DecidableEq

inductive SchemaError where
  | unknownReference (entity name target : String)
deriving DecidableEq, Repr

def SchemaError.message : SchemaError → String
  | unknownReference e a t => s!"attribute {e}.{a} references unregistered entity '{t}'"

namespace Schema

def empty : Schema := ⟨.empty⟩

/-- An entity takes the place of one that has its name. -/
def register (s : Schema) (e : EntityType) : Schema := ⟨s.table.insert e.name e.attributes⟩

def ofList (es : List EntityType) : Schema := es.foldl register empty

def toList (s : Schema) : List EntityType := s.table.entries.map fun e => ⟨e.1, e.2⟩

def entity? (s : Schema) (name : String) : Option EntityType :=
  (s.table.get? name).map fun attributes => ⟨name, attributes⟩

def containsEntity (s : Schema) (name : String) : Bool := s.table.contains name

def attribute? (s : Schema) (entity name : String) : Option Attribute :=
  (s.entity? entity).bind (·.attribute? name)

def graph (s : Schema) : AttributeGraph := ⟨s.attribute?, s.containsEntity⟩

/-- The error of an attribute that refers to no registered entity. -/
def danglingReference? (s : Schema) (e : EntityType) (a : Attribute) : Option SchemaError :=
  a.type.entityName?.bind fun target =>
    if s.containsEntity target then none else some (.unknownReference e.name a.name target)

/-- Entities have no order of their own, so of several dangling references any one may be told. Here
they are gone through by name, and the attributes of each as they are declared. -/
def validate (s : Schema) : Except SchemaError Unit :=
  match s.toList.findSome? fun e => e.attributes.findSome? (s.danglingReference? e) with
  | none => .ok ()
  | some e => .error e

end Schema

end EntityFilter

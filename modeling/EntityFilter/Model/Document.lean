import EntityFilter.Json.Decoder
import EntityFilter.Json.Printer
import EntityFilter.Model.Schema
import EntityFilter.Model.Policy

namespace EntityFilter

def Json.ofStrings (ss : List String) : Json := .array (ss.map .string)

/-- An object with its fields brought in order. -/
def Json.ofFields (fields : List (String × Json)) : Json := .object (Table.ofList fields).entries

namespace AttributeType

def kind : AttributeType → String
  | string => "string"
  | integer => "integer"
  | long => "long"
  | double => "double"
  | decimal => "decimal"
  | boolean => "boolean"
  | date => "date"
  | dateTime => "date_time"
  | enumeration .. => "enum"
  | entity _ => "entity"

def toJson (t : AttributeType) : Json :=
  match t with
  | enumeration name variants =>
    .ofFields [("kind", .string t.kind), ("name", .string name), ("variants", .ofStrings variants)]
  | entity name => .ofFields [("kind", .string t.kind), ("name", .string name)]
  | t => .ofFields [("kind", .string t.kind)]

end AttributeType

def Attribute.toJson (a : Attribute) : Json :=
  .ofFields [("name", .string a.name), ("type", a.type.toJson),
    ("multiplicity", .string a.multiplicity.name)]

def EntityType.toJson (e : EntityType) : Json :=
  .ofFields [("name", .string e.name), ("attributes", .array (e.attributes.map Attribute.toJson))]

def Schema.toJson (s : Schema) : Json := .array (s.toList.map EntityType.toJson)

def Policy.toJson (p : Policy) : Json :=
  .ofFields [("allowed_selectors", .ofStrings p.allowed.names),
    ("selector_aliases", .object (p.aliases.entries.map fun e => (e.1, .string e.2))),
    ("always_wildcard", .bool p.alwaysWildcard)]

namespace Decoder

def multiplicityOf? : String → Option Multiplicity
  | "single" => some .single
  | "collection" => some .collection
  | _ => none

def orUnfit {α : Type} (x : Option α) : Except JsonFault α := (x.map Except.ok).getD (.error .unfit)

/-- The end of the object form of a constant, which has one member. -/
def constantEnd : Ending → Option JsonFault
  | .closed => none
  | .cut => some .truncated
  | _ => some .malformed

/-- A constant is its name, or an object from its name to null. -/
def multiplicity : Decoder Multiplicity
  | _, .string t => do
    let name ← t
    orUnfit (multiplicityOf? name)
  | 0, .object _ _ => .error .malformed
  | _ + 1, .object [] (.badKey f) => .error f
  | _ + 1, .object [] .cut => .error .truncated
  | _ + 1, .object [] _ => .error .malformed
  | _ + 1, .object ((key, v) :: more) e => do
    let name ← key
    let m ← orUnfit (multiplicityOf? name)
    match v with
    | .null => if more.isEmpty then orFault m (constantEnd e) else .error .malformed
    | v => .error v.refusal
  | _, .broken b =>
    .error (match b.kind with
      | .nothing => .truncated
      | .string => b.wanted
      | .other => .malformed)
  | _, _ => .error .malformed

/-- A type without its kind: the fields of an object, or the items of an array. -/
inductive TypeBody where
  | fields (fs : List (String × Json))
  | items (xs : List Json)

namespace TypeBody

def string? : Json → Option String
  | .string s => some s
  | _ => none

def strings? : Json → Option (List String)
  | .array xs => xs.mapM string?
  | _ => none

/-- The value of a field that is given exactly once. -/
def unique? (name : String) (fs : List (String × Json)) : Option Json :=
  match fs.filter (·.1 == name) with
  | [f] => some f.2
  | _ => none

def plain? (t : AttributeType) : TypeBody → Option AttributeType
  | fields _ => some t
  | items [] => some t
  | items (_ :: _) => none

def entity? : TypeBody → Option AttributeType
  | fields fs => ((unique? "name" fs).bind string?).map .entity
  | items [name] => (string? name).map .entity
  | items _ => none

def enumeration? : TypeBody → Option AttributeType
  | fields fs => do
    let name ← (unique? "name" fs).bind string?
    let variants ← (unique? "variants" fs).bind strings?
    some (.enumeration name variants)
  | items [name, variants] => do
    let name ← string? name
    let variants ← strings? variants
    some (.enumeration name variants)
  | items _ => none

end TypeBody

/-- How a type of a kind is made from the rest of it. The kind need not come first in the text, so
the other fields are read as plain JSON and looked at when all are there. -/
def typeOfKind? : String → Option (TypeBody → Option AttributeType)
  | "string" => some (TypeBody.plain? .string)
  | "integer" => some (TypeBody.plain? .integer)
  | "long" => some (TypeBody.plain? .long)
  | "double" => some (TypeBody.plain? .double)
  | "decimal" => some (TypeBody.plain? .decimal)
  | "boolean" => some (TypeBody.plain? .boolean)
  | "date" => some (TypeBody.plain? .date)
  | "date_time" => some (TypeBody.plain? .dateTime)
  | "enum" => some TypeBody.enumeration?
  | "entity" => some TypeBody.entity?
  | _ => none

abbrev TypeMaker : Type := TypeBody → Option AttributeType

def kind : Decoder TypeMaker := fun n o => do
  let name ← text n o
  orUnfit (typeOfKind? name)

/-- One member of a type: its kind, or a field for later. -/
def typeMember (n : Nat) (s : Option TypeMaker × List (String × Json))
    (member : Except JsonFault String × Outline) :
    Except JsonFault (Option TypeMaker × List (String × Json)) := do
  let key ← member.1
  if key = "kind" then
    if s.1.isSome then .error .unfit
    else do
      let k ← kind n member.2
      .ok (some k, s.2)
  else do
    let v ← json n member.2
    .ok (s.1, s.2 ++ [(key, v)])

def attributeType : Decoder AttributeType
  | 0, .object _ _ | 0, .array _ _ => .error .malformed
  | n + 1, .object members e => do
    let (make, fs) ← members.foldlM (typeMember n) (none, [])
    let make ← orFault make e.fault?
    orUnfit (make.bind fun m => m (.fields fs))
  | _ + 1, .array [] e => .error (e.fault?.getD .unfit)
  | n + 1, .array (o :: os) e => do
    let make ← kind n o
    let xs ← jsonItems n os
    let xs ← orFault xs e.fault?
    orUnfit (make (.items xs))
  | _, o => .error o.refusal

structure AttributeFields where
  name : Option String
  type : Option AttributeType
  multiplicity : Option Multiplicity

namespace AttributeFields

def readName (s : AttributeFields) : Field AttributeFields :=
  once s.name text fun x => { s with name := some x }

def readType (s : AttributeFields) : Field AttributeFields :=
  once s.type attributeType fun x => { s with type := some x }

def readMultiplicity (s : AttributeFields) : Field AttributeFields :=
  once s.multiplicity Decoder.multiplicity fun x => { s with multiplicity := some x }

def field (s : AttributeFields) : String → Field AttributeFields
  | "name" => s.readName
  | "type" => s.readType
  | "multiplicity" => s.readMultiplicity
  | _ => .skip

def build? (s : AttributeFields) : Option Attribute := do
  let name ← s.name
  let type ← s.type
  some ⟨name, type, s.multiplicity.getD .single⟩

end AttributeFields

/-- A schema ignores fields it does not know. The multiplicity may be left out. -/
def attributeRecord : Decoder Attribute :=
  record ⟨none, none, none⟩ AttributeFields.field
    [AttributeFields.readName, AttributeFields.readType, AttributeFields.readMultiplicity]
    AttributeFields.build?

structure EntityFields where
  name : Option String
  attributes : Option (List Attribute)

namespace EntityFields

def readName (s : EntityFields) : Field EntityFields :=
  once s.name text fun x => { s with name := some x }

def readAttributes (s : EntityFields) : Field EntityFields :=
  once s.attributes (list attributeRecord) fun x => { s with attributes := some x }

def field (s : EntityFields) : String → Field EntityFields
  | "name" => s.readName
  | "attributes" => s.readAttributes
  | _ => .skip

def build? (s : EntityFields) : Option EntityType :=
  s.name.map fun name => ⟨name, s.attributes.getD []⟩

end EntityFields

/-- The attributes may be left out. -/
def entityType : Decoder EntityType :=
  record ⟨none, none⟩ EntityFields.field [EntityFields.readName, EntityFields.readAttributes]
    EntityFields.build?

def schema : Decoder Schema := fun n o => (list entityType n o).map Schema.ofList

structure PolicyFields where
  allowed : Option (List String)
  aliases : Option (Table String)
  alwaysWildcard : Option Bool

namespace PolicyFields

def readAllowed (s : PolicyFields) : Field PolicyFields :=
  once s.allowed (list text) fun x => { s with allowed := some x }

def readAliases (s : PolicyFields) : Field PolicyFields :=
  once s.aliases (table text) fun x => { s with aliases := some x }

def readAlwaysWildcard (s : PolicyFields) : Field PolicyFields :=
  once s.alwaysWildcard flag fun x => { s with alwaysWildcard := some x }

def field (s : PolicyFields) : String → Field PolicyFields
  | "allowed_selectors" => s.readAllowed
  | "selector_aliases" => s.readAliases
  | "always_wildcard" => s.readAlwaysWildcard
  | _ => .refuse

def build (s : PolicyFields) : Policy :=
  { Policy.ofSelectors (s.allowed.getD []) with
    aliases := s.aliases.getD .empty
    alwaysWildcard := s.alwaysWildcard.getD false }

end PolicyFields

/-- A policy refuses fields it does not know. All of its own may be left out. -/
def policy : Decoder Policy :=
  record ⟨none, none, none⟩ PolicyFields.field
    [PolicyFields.readAllowed, PolicyFields.readAliases, PolicyFields.readAlwaysWildcard]
    fun s => some s.build

end Decoder

/-- Why a document gives no schema or policy. -/
inductive DocumentError (ε : Type) where
  | json (f : JsonFault)
  | invalid (e : ε)
deriving DecidableEq, Repr

def Schema.ofText (s : String) : Except (DocumentError SchemaError) Schema := do
  let schema ← (Decoder.schema.run s).mapError .json
  schema.validate.mapError .invalid
  .ok schema

def Policy.ofText (s : String) : Except (DocumentError PolicyError) Policy := do
  let policy ← (Decoder.policy.run s).mapError .json
  policy.validate.mapError .invalid
  .ok policy

end EntityFilter

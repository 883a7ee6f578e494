import EntityFilter.Json.Printer
import EntityFilter.Model.Path
import EntityFilter.Filter.LikePattern
import EntityFilter.Filter.Coercion

namespace EntityFilter

/-- Why a predicate cannot be evaluated on a record. -/
inductive ExecutionError where
  | typeMismatch (path field literal : String)
  | invalidSizeArgument (path literal : String)
  | invalidField (path expected found : String)
  | pattern (pattern reason : String)
deriving DecidableEq, Repr

def ExecutionError.message : ExecutionError → String
  | typeMismatch p f l => s!"type mismatch on '{p}': cannot compare {f} with {l}"
  | invalidSizeArgument p l => s!"size of '{p}' must be compared with an integer, got {l}"
  | invalidField p e f => s!"field '{p}' is declared as {e} but holds {f}"
  | pattern p r => s!"invalid like pattern {p}: {r}"

namespace Record

def invalid (path : Path) (expected : String) (found : Json) : ExecutionError :=
  .invalidField path.selector expected found.compact

/-- A field that is there and not null. -/
def field? (name : String) (record : Json) : Option Json :=
  (record.get? name).filter fun v => !v.isNull

/-- An object at a hop. A null is kept as nothing. -/
def asEntity (path : Path) (hop : Attribute) : Json → Except ExecutionError (Option Json)
  | .null => .ok none
  | .object fields => .ok (some (.object fields))
  | other => .error (invalid path hop.type.display other)

/-- What a hop leads to from one object or from nothing. Only a missing field or a null ends a path;
any other value where an object or an array of objects is declared is invalid, in whatever place it
stands. -/
def follow (path : Path) (hop : Attribute) (parent : Option Json) :
    Except ExecutionError (List (Option Json)) :=
  match parent.bind (field? hop.name) with
  | none => .ok (if hop.isCollection then [] else [none])
  | some v =>
    if hop.isCollection then
      match v with
      | .array items => items.mapM (asEntity path hop)
      | other => .error (invalid path hop.type.collectionText other)
    else (asEntity path hop v).map ([·])

/-- What the hops lead to from each of the objects. -/
def followAll (path : Path) : List Attribute → List (Option Json) →
    Except ExecutionError (List (Option Json))
  | [], frontier => .ok frontier
  | hop :: hops, frontier => do
    let next ← frontier.mapM (follow path hop)
    followAll path hops next.flatten

/-- The objects that have the target of the path. -/
def parents (record : Json) (path : Path) : Except ExecutionError (List (Option Json)) :=
  followAll path path.hops [some record]

/-- The values of the target in one parent: its elements, if it is a collection. -/
def targetValues (path : Path) (parent : Option Json) :
    Except ExecutionError (List (Option Json)) :=
  let found := parent.bind (field? path.target.name)
  if path.isCollectionValued then
    match found with
    | none => .ok []
    | some (.array items) => .ok (items.map some)
    | some other => .error (invalid path path.target.type.collectionText other)
  else .ok [found]

/-- What a path reaches in a record, an object with its fields under the names of attributes. -/
def values (record : Json) (path : Path) : Except ExecutionError (List (Option Json)) := do
  let ps ← parents record path
  let vs ← ps.mapM (targetValues path)
  .ok vs.flatten

/-- The size of the target in one parent. What is missing has no elements. -/
def targetCount (path : Path) (parent : Json) : Except ExecutionError Nat :=
  match field? path.target.name parent with
  | none => .ok 0
  | some (.array items) => .ok items.length
  | some other => .error (invalid path path.target.type.collectionText other)

/-- The sizes of the target collection, one for each parent that is an object. -/
def counts (record : Json) (path : Path) : Except ExecutionError (List Nat) := do
  let ps ← parents record path
  (ps.filterMap id).mapM (targetCount path)

/-- A decimal is stored as a number, or as a string to keep its digits. -/
def decimalOf? : Json → Option Value
  | .number n => Value.decimalOf? n.text
  | .string s => (Decimal.ofText? s.toList).map .decimal
  | _ => none

/-- A stored value as one of a type, if it is one. -/
def valueOf? (type : AttributeType) (stored : Json) : Option Value :=
  match type, stored with
  | .string, .string s => some (.string s)
  | .integer, .number n =>
    (n.long?.filter (Text.fitsWord 32)).map .integer
  | .long, .number n => n.long?.map .long
  | .double, .number n => some (.double n.toDouble)
  | .decimal, stored => decimalOf? stored
  | .boolean, .bool b => some (.boolean b)
  | .date, .string s => (Calendar.date s.toList).toOption.map .date
  | .dateTime, .string s => Value.instantOf? s
  | .enumeration _ variants, .string s => if variants.contains s then some (.constant s) else none
  | _, _ => none

/-- Reads a stored value as the declared type of the target. A null has no value. -/
def read (path : Path) (stored : Json) : Except ExecutionError (Option Value) :=
  match stored with
  | .null => .ok none
  | stored =>
    match valueOf? path.target.type stored with
    | some v => .ok (some v)
    | none => .error (invalid path path.target.type.display stored)

end Record

end EntityFilter

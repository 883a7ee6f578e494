import EntityFilter.Text.Split
import EntityFilter.Model.Attribute
import EntityFilter.Model.Policy

namespace EntityFilter

/-- The attributes that lead to the target, root first, and the target. -/
structure Path where
  hops : List Attribute
  target : Attribute
deriving DecidableEq, Repr

namespace Path

def segments (p : Path) : List Attribute := p.hops ++ [p.target]

def depth (p : Path) : Nat := p.hops.length + 1

def isCollectionValued (p : Path) : Bool := p.target.isCollection

def hasCollectionHop (p : Path) : Bool := p.hops.any (·.isCollection)

/-- The names of the segments with points between them. -/
def selector (p : Path) : String := ".".intercalate (p.segments.map (·.name))

end Path

inductive ResolutionError where
  | notAllowed (selector : String)
  | unknownEntity (name : String)
  | unknownAttribute (selector entity segment : String)
  | notTraversable (selector segment : String) (type : AttributeType)
deriving DecidableEq, Repr

def ResolutionError.message : ResolutionError → String
  | notAllowed s => s!"selector '{s}' is not allowed"
  | unknownEntity n => s!"entity '{n}' is not registered"
  | unknownAttribute s e n => s!"selector '{s}': {e} has no attribute '{n}'"
  | notTraversable s n t => s!"selector '{s}': '{n}' is a {t.display} and cannot be traversed"

namespace Path

/-- Follows `name` and then `rest` from an entity that `hops` lead to. Collections are followed
through the type of their elements. -/
def walk (graph : AttributeGraph) (selector entity : String) (hops : List Attribute) (name : String)
    (rest : List String) : Except ResolutionError Path :=
  match graph.attribute? entity name with
  | none => .error (.unknownAttribute selector entity name)
  | some a =>
    match rest with
    | [] => .ok ⟨hops, a⟩
    | next :: rest =>
      match a.type.entityName? with
      | none => .error (.notTraversable selector name a.type)
      | some e => walk graph selector e (hops ++ [a]) next rest

/-- The allow-list is asked first, for the selector as written. Only then is the selector replaced
by what it stands for and followed through the graph of attributes, so what is forbidden is refused
whether it exists or not. -/
def resolve (graph : AttributeGraph) (root : String) (policy : Policy) (selector : String) :
    Except ResolutionError Path :=
  if !policy.isAllowed selector then .error (.notAllowed selector)
  else if !graph.containsEntity root then .error (.unknownEntity root)
  else
    let (name, rest) := Text.splitAtAll '.' (policy.mapSelector selector).toList
    walk graph selector root [] (String.ofList name) (rest.map String.ofList)

end Path

end EntityFilter

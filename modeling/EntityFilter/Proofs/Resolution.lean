import EntityFilter.Model.Path
import EntityFilter.Model.Schema

namespace EntityFilter

theorem AttributeType.entityName?_eq_some {t : AttributeType} {name : String} :
    t.entityName? = some name ↔ t = .entity name := by
  cases t <;> simp [AttributeType.entityName?]

theorem Table.contains_iff_mem_names {α : Type} {t : Table α} {name : String} :
    t.contains name = true ↔ name ∈ t.names := by
  simp [Table.contains, Table.get?, Table.names]

theorem Policy.isAllowed_iff {p : Policy} {selector : String} :
    p.isAllowed selector = true ↔ selector ∈ p.allowed.names :=
  Table.contains_iff_mem_names

/-- The parts of a path between its points. -/
def Path.segmentNames (selector : String) : List String :=
  let (name, rest) := Text.splitAtAll '.' selector.toList
  String.ofList name :: rest.map String.ofList

/-- `Leads graph entity names hops target`: the attributes `names`, looked up one after another from
`entity` on, are `hops` and at last `target`, and each hop refers to the entity that has the next.
-/
inductive Leads (graph : AttributeGraph) : String → List String → List Attribute → Attribute → Prop
    where
  | target {entity name : String} {a : Attribute} (found : graph.attribute? entity name = some a) :
    Leads graph entity [name] [] a
  | hop {entity name next : String} {a target : Attribute} {names : List String}
    {hops : List Attribute} (found : graph.attribute? entity name = some a)
    (refers : a.type = .entity next) (rest : Leads graph next names hops target) :
    Leads graph entity (name :: names) (a :: hops) target

namespace Leads

variable {graph : AttributeGraph} {entity name : String} {hops : List Attribute} {target : Attribute}

theorem last_iff :
    Leads graph entity [name] hops target ↔
      hops = [] ∧ graph.attribute? entity name = some target := by
  constructor
  · intro h
    cases h with
    | target found => exact ⟨rfl, found⟩
    | hop _ _ rest => cases rest
  · rintro ⟨rfl, found⟩
    exact .target found

theorem hop_iff {second : String} {names : List String} :
    Leads graph entity (name :: second :: names) hops target ↔
      ∃ a next more, graph.attribute? entity name = some a ∧ a.type = .entity next ∧
        hops = a :: more ∧ Leads graph next (second :: names) more target := by
  constructor
  · intro h
    cases h with
    | hop found refers rest => exact ⟨_, _, _, found, refers, rfl, rest⟩
  · rintro ⟨a, next, more, found, refers, rfl, rest⟩
    exact .hop found refers rest

end Leads

namespace Path

/-- A walk gathers just the attributes of the chain that the names lead along. -/
theorem walk_eq_ok {graph : AttributeGraph} {selector entity name : String}
    {hops : List Attribute} {rest : List String} {path : Path} :
    walk graph selector entity hops name rest = .ok path ↔
      ∃ more, path.hops = hops ++ more ∧ Leads graph entity (name :: rest) more path.target := by
  induction rest generalizing entity name hops with
  | nil =>
    simp only [walk, Leads.last_iff]
    cases graph.attribute? entity name with
    | none => simp
    | some a =>
      obtain ⟨hs, t⟩ := path
      simp only [Except.ok.injEq, mk.injEq, Option.some.injEq]
      constructor
      · rintro ⟨rfl, rfl⟩
        exact ⟨[], by simp, rfl, rfl⟩
      · rintro ⟨_, rfl, rfl, rfl⟩
        simp
  | cons next rest ih =>
    rw [walk]
    simp only [Leads.hop_iff]
    cases graph.attribute? entity name with
    | none => simp
    | some a =>
      cases refers : a.type.entityName? with
      | none =>
        have noEntity : ∀ e, a.type ≠ .entity e := fun e h => by
          simp [h, AttributeType.entityName?] at refers
        simp [refers, noEntity]
      | some e =>
        have type : a.type = .entity e := AttributeType.entityName?_eq_some.mp refers
        simp only [refers, ih, Option.some.injEq]
        constructor
        · rintro ⟨more, he, h⟩
          exact ⟨a :: more, by simp [he], a, e, more, rfl, type, rfl, h⟩
        · rintro ⟨_, he, _, _, more, rfl, same, rfl, h⟩
          rw [type] at same
          cases same
          exact ⟨more, by simp [he], h⟩

/-- A selector resolves exactly when it is allowed, the root is registered and what it stands for
leads from there to the path. -/
theorem resolve_eq_ok {graph : AttributeGraph} {root selector : String} {policy : Policy}
    {path : Path} :
    resolve graph root policy selector = .ok path ↔
      policy.isAllowed selector = true ∧ graph.containsEntity root = true ∧
        Leads graph root (segmentNames (policy.mapSelector selector)) path.hops path.target := by
  rw [resolve]
  cases policy.isAllowed selector with
  | false => simp
  | true =>
    cases graph.containsEntity root with
    | false => simp
    | true =>
      simp only [Bool.not_true, Bool.false_eq_true, ↓reduceIte, true_and]
      rw [walk_eq_ok]
      simp [segmentNames]

end Path

/-- In a schema an attribute is found under its own name. -/
theorem Schema.name_of_attribute? {s : Schema} {entity name : String} {a : Attribute}
    (h : s.graph.attribute? entity name = some a) : a.name = name := by
  simp only [Schema.graph, Schema.attribute?, Option.bind_eq_some_iff] at h
  obtain ⟨e, _, h⟩ := h
  simpa using List.find?_some h

theorem Schema.mem_of_attribute? {s : Schema} {entity name : String} {a : Attribute}
    (h : s.graph.attribute? entity name = some a) :
    ∃ attributes, s.table.get? entity = some attributes ∧ a ∈ attributes := by
  simp only [Schema.graph, Schema.attribute?, Option.bind_eq_some_iff, Schema.entity?,
    Option.map_eq_some_iff] at h
  obtain ⟨e, ⟨attributes, found, rfl⟩, h⟩ := h
  exact ⟨attributes, found, List.mem_of_find?_eq_some h⟩

/-- Attributes are found under their own names. -/
theorem Leads.names_eq {s : Schema} {entity : String} {names : List String}
    {hops : List Attribute} {target : Attribute} (h : Leads s.graph entity names hops target) :
    (hops ++ [target]).map (·.name) = names := by
  induction h with
  | target found => simp [Schema.name_of_attribute? found]
  | hop found _ _ ih => simp [Schema.name_of_attribute? found, ih]

end EntityFilter

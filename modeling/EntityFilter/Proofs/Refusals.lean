import EntityFilter.Proofs.Clinic
import EntityFilter.Proofs.Resolution

namespace EntityFilter

/-- The attributes `names`, looked up one after another from the first entity on, refer each to the
entity that has the next one, and the last of them to the last entity. -/
inductive Follows (graph : AttributeGraph) : String → List String → String → Prop where
  | here (entity : String) : Follows graph entity [] entity
  | on {entity name next last : String} {names : List String} {a : Attribute}
    (found : graph.attribute? entity name = some a) (refers : a.type = .entity next)
    (rest : Follows graph next names last) : Follows graph entity (name :: names) last

/-- The first of the names at which a walk from the entity ends before its target, and why. -/
inductive Stops (graph : AttributeGraph) (selector entity : String) (names : List String) :
    ResolutionError → Prop where
  | unknown {before after : List String} {name reached : String}
    (split : names = before ++ name :: after) (follows : Follows graph entity before reached)
    (missing : graph.attribute? reached name = none) :
    Stops graph selector entity names (.unknownAttribute selector reached name)
  | scalar {before after : List String} {name next reached : String} {a : Attribute}
    (split : names = before ++ name :: next :: after)
    (follows : Follows graph entity before reached)
    (found : graph.attribute? reached name = some a) (refers : a.type.entityName? = none) :
    Stops graph selector entity names (.notTraversable selector name a.type)

/-- What a selector is refused for: the allow-list is asked first, then the root, then the graph. -/
inductive Path.Refused (graph : AttributeGraph) (root : String) (policy : Policy)
    (selector : String) : ResolutionError → Prop where
  | notAllowed (forbidden : policy.isAllowed selector = false) :
    Refused graph root policy selector (.notAllowed selector)
  | unknownEntity (allowed : policy.isAllowed selector = true)
    (missing : graph.containsEntity root = false) :
    Refused graph root policy selector (.unknownEntity root)
  | walk {e : ResolutionError} (allowed : policy.isAllowed selector = true)
    (registered : graph.containsEntity root = true)
    (stops : Stops graph selector root (segmentNames (policy.mapSelector selector)) e) :
    Refused graph root policy selector e

section

variable {graph : AttributeGraph} {selector entity next : String} {names : List String}
  {e : ResolutionError}

theorem Stops.behind {name : String} {a : Attribute} (found : graph.attribute? entity name = some a)
    (refers : a.type = .entity next) (h : Stops graph selector next names e) :
    Stops graph selector entity (name :: names) e := by
  cases h with
  | @unknown before _ _ _ split follows missing =>
    exact .unknown (congrArg (name :: ·) split) (.on found refers follows) missing
  | scalar split follows found' refers' =>
    exact .scalar (congrArg (name :: ·) split) (.on found refers follows) found' refers'

namespace Path

/-- Behind attributes that refer to each other the walk goes on from the entity they lead to. -/
theorem walk_of_follows {before : List String} {reached : String}
    (h : Follows graph entity before reached) {first name : String} {rest after : List String}
    (split : first :: rest = before ++ name :: after) (selector : String) (hops : List Attribute) :
    ∃ hops', walk graph selector entity hops first rest =
      walk graph selector reached hops' name after := by
  induction h generalizing first rest hops with
  | here =>
    cases split
    exact ⟨hops, rfl⟩
  | @on entity _ next last _ a found refers _ ih =>
    obtain ⟨rfl, more⟩ := List.cons.inj split
    cases rest with
    | nil => simp at more
    | cons second rest =>
      obtain ⟨hops', same⟩ := ih more (hops ++ [a])
      refine ⟨hops', ?_⟩
      have entity : a.type.entityName? = some next := AttributeType.entityName?_eq_some.mpr refers
      rw [walk, found]
      simp only [entity, same]

/-- A walk stops at the first step that cannot be made. -/
theorem stops_of_walk {name : String} {rest : List String} {hops : List Attribute}
    (h : walk graph selector entity hops name rest = .error e) :
    Stops graph selector entity (name :: rest) e := by
  induction rest generalizing entity name hops with
  | nil =>
    unfold walk at h
    split at h
    · rename_i missing
      cases h
      exact .unknown rfl (.here entity) missing
    · cases h
  | cons second rest ih =>
    unfold walk at h
    split at h
    · rename_i missing
      cases h
      exact .unknown rfl (.here entity) missing
    · rename_i a found
      dsimp only at h
      split at h
      · rename_i refers
        cases h
        exact .scalar rfl (.here entity) found refers
      · rename_i next refers
        exact .behind found (AttributeType.entityName?_eq_some.mp refers) (ih h)

/-- A walk fails as the first of its steps does that cannot be made. -/
theorem walk_eq_error {name : String} {rest : List String} {hops : List Attribute} :
    walk graph selector entity hops name rest = .error e ↔
      Stops graph selector entity (name :: rest) e := by
  constructor
  · exact stops_of_walk
  · intro h
    cases h with
    | unknown split follows missing =>
      obtain ⟨hops', same⟩ := walk_of_follows follows split selector hops
      rw [same, walk.eq_def]
      simp only [missing]
    | scalar split follows found refers =>
      obtain ⟨hops', same⟩ := walk_of_follows follows split selector hops
      rw [same, walk.eq_def]
      simp only [found, refers]

/-- A selector is refused for the list, for the root, or for the first step that cannot be made, in
this order. -/
theorem resolve_eq_error {root : String} {policy : Policy} :
    resolve graph root policy selector = .error e ↔ Refused graph root policy selector e := by
  unfold resolve
  constructor
  · intro h
    split at h
    · rename_i forbidden
      cases h
      exact .notAllowed (by simpa using forbidden)
    · rename_i allowed
      have allowed : policy.isAllowed selector = true := by simpa using allowed
      split at h
      · rename_i missing
        cases h
        exact .unknownEntity allowed (by simpa using missing)
      · rename_i registered
        exact .walk allowed (by simpa using registered) (walk_eq_error.mp h)
  · intro h
    cases h with
    | notAllowed forbidden => simp [forbidden]
    | unknownEntity allowed missing => simp [allowed, missing]
    | walk allowed registered stops =>
      simp only [allowed, registered, Bool.not_true, Bool.false_eq_true, if_false]
      exact walk_eq_error.mpr stops

end Path

end

theorem Text.not_mem_of_mem_splitAtAll {separator : Char} {cs part : List Char}
    (h : part = (splitAtAll separator cs).1 ∨ part ∈ (splitAtAll separator cs).2) :
    separator ∉ part := by
  induction cs generalizing part with
  | nil =>
    rcases h with rfl | h
    · exact List.not_mem_nil
    · cases h
  | cons c cs ih =>
    simp only [splitAtAll] at h
    split at h
    · rcases h with rfl | h
      · exact List.not_mem_nil
      · exact ih (by simpa using h)
    · rename_i other
      rcases h with rfl | h
      · simpa [Ne.symm other] using ih (.inl rfl)
      · exact ih (.inr h)

theorem Text.intercalate_ofList (part : List Char) (parts : List (List Char)) :
    ".".intercalate (String.ofList part :: parts.map String.ofList) =
      String.ofList (joinParts '.' part parts) := by
  induction parts generalizing part with
  | nil => simp [joinParts]
  | cons next parts ih =>
    rw [List.map_cons, String.intercalate_cons_cons, ih, joinParts]
    apply String.toList_inj.mp
    simp

namespace Path

/-- With the points between them the parts are the selector again. -/
theorem intercalate_segmentNames (selector : String) :
    ".".intercalate (segmentNames selector) = selector := by
  rw [segmentNames, Text.intercalate_ofList, Text.joinParts_splitAtAll, String.ofList_toList]

theorem not_mem_segmentNames {selector name : String} (h : name ∈ segmentNames selector) :
    '.' ∉ name.toList := by
  rcases List.mem_cons.mp h with rfl | h
  · rw [String.toList_ofList]
    exact Text.not_mem_of_mem_splitAtAll (.inl rfl)
  · obtain ⟨part, hp, rfl⟩ := List.mem_map.mp h
    rw [String.toList_ofList]
    exact Text.not_mem_of_mem_splitAtAll (.inr hp)

end Path

theorem Leads.refers {graph : AttributeGraph} {entity : String} {names : List String}
    {hops : List Attribute} {target : Attribute} (h : Leads graph entity names hops target) :
    ∀ a ∈ hops, a.isTraversable = true := by
  induction h with
  | target => simp
  | hop _ refers _ ih =>
    intro a ha
    rcases List.mem_cons.mp ha with rfl | ha
    · simp [Attribute.isTraversable, AttributeType.isEntity, refers, AttributeType.entityName?]
    · exact ih a ha

theorem Leads.declared {schema : Schema} {entity : String} {names : List String}
    {hops : List Attribute} {target : Attribute} (h : Leads schema.graph entity names hops target) :
    ∀ a ∈ hops ++ [target], ∃ entity, schema.attribute? entity a.name = some a := by
  induction h with
  | target found =>
    intro a ha
    obtain rfl := List.mem_singleton.mp ha
    exact ⟨_, Schema.name_of_attribute? found ▸ found⟩
  | hop found _ _ ih =>
    intro a ha
    rcases List.mem_cons.mp ha with rfl | ha
    · exact ⟨_, Schema.name_of_attribute? found ▸ found⟩
    · exact ih a ha

theorem Table.mem_entries_of_get? {α : Type} {t : Table α} {name : String} {x : α}
    (h : t.get? name = some x) : (name, x) ∈ t.entries := by
  obtain ⟨⟨name', _⟩, found, rfl⟩ := Option.map_eq_some_iff.mp h
  have same : name' = name := by simpa using List.find?_some found
  exact same ▸ List.mem_of_find?_eq_some found

namespace Schema

variable {s : Schema}

/-- In a valid schema every reference is to a registered entity. -/
theorem containsEntity_of_refers (valid : s.validate = .ok ()) {entity name next : String}
    {a : Attribute} (found : s.graph.attribute? entity name = some a)
    (refers : a.type = .entity next) : s.graph.containsEntity next = true := by
  obtain ⟨attributes, registered, mem⟩ := mem_of_attribute? found
  have listed : (⟨entity, attributes⟩ : EntityType) ∈ s.toList :=
    List.mem_map.mpr ⟨_, Table.mem_entries_of_get? registered, rfl⟩
  have sound : s.danglingReference? ⟨entity, attributes⟩ a = none := by
    unfold validate at valid
    split at valid
    · rename_i fine
      exact List.findSome?_eq_none_iff.mp (List.findSome?_eq_none_iff.mp fine _ listed) a mem
    · cases valid
  have target : a.type.entityName? = some next := AttributeType.entityName?_eq_some.mpr refers
  simpa [danglingReference?, target, graph] using sound

/-- In a schema that is valid every entity that is referred to is registered. -/
theorem containsEntity_of_follows (valid : s.validate = .ok ()) {entity last : String}
    {names : List String} (h : Follows s.graph entity names last)
    (registered : s.graph.containsEntity entity = true) : s.graph.containsEntity last = true := by
  induction h with
  | here => exact registered
  | on found refers _ ih => exact ih (containsEntity_of_refers valid found refers)

end Schema

namespace Path

/-- A selector resolves exactly if it is allowed, the root is registered and the parts of what it
stands for lead through the graph; the path is made of the attributes on this way. Otherwise it is
refused for the first of these that fails. In a schema the path reads as what the selector stands
for, part by part, and a valid one is never left on the way. -/
theorem resolve_iff_walk (graph : AttributeGraph) (root selector : String) (policy : Policy) :
    (".".intercalate (segmentNames (policy.mapSelector selector)) = policy.mapSelector selector ∧
      ∀ name ∈ segmentNames (policy.mapSelector selector), '.' ∉ name.toList) ∧
    (∀ path, resolve graph root policy selector = .ok path ↔
      policy.isAllowed selector = true ∧ graph.containsEntity root = true ∧
        Leads graph root (segmentNames (policy.mapSelector selector)) path.hops path.target) ∧
    (∀ e, resolve graph root policy selector = .error e ↔ Refused graph root policy selector e) ∧
    ∀ schema : Schema, graph = schema.graph →
      (∀ path, resolve graph root policy selector = .ok path →
        path.selector = policy.mapSelector selector ∧
        path.depth = (segmentNames (policy.mapSelector selector)).length ∧
        (∀ a ∈ path.hops, a.isTraversable = true) ∧
        ∀ a ∈ path.segments, ∃ entity, schema.attribute? entity a.name = some a) ∧
      (schema.validate = .ok () → ∀ s entity name,
        resolve graph root policy selector = .error (.unknownAttribute s entity name) →
        schema.containsEntity entity = true) := by
  refine ⟨⟨intercalate_segmentNames _, fun _ => not_mem_segmentNames⟩, fun _ => resolve_eq_ok,
    fun _ => resolve_eq_error, ?_⟩
  rintro schema rfl
  constructor
  · intro path resolved
    obtain ⟨_, _, leads⟩ := resolve_eq_ok.mp resolved
    have names := leads.names_eq
    refine ⟨?_, ?_, leads.refers, leads.declared⟩
    · rw [Path.selector, segments, names, intercalate_segmentNames]
    · rw [← names]
      simp [depth]
  · intro valid s entity name refused
    cases resolve_eq_error.mp refused with
    | walk _ registered stops =>
      cases stops with
      | unknown _ follows _ => exact Schema.containsEntity_of_follows valid follows registered

/-- Behind the last point stands a part without characters, and an age leads nowhere. -/
theorem resolve_iff_walk_of_clinic :
    Clinic.schema.validate = .ok () ∧
      resolve Clinic.schema.graph "Owner" (Clinic.policy.allow "pets.") "pets." =
        .error (.unknownAttribute "pets." "Pet" "") ∧
      Clinic.schema.containsEntity "Pet" = true ∧
      resolve Clinic.schema.graph "Owner" (Clinic.policy.allow "pets.age.days") "pets.age.days" =
        .error (.notTraversable "pets.age.days" "age" .integer) ∧
      resolve Clinic.schema.graph "Owner" Clinic.policy "pets.age" = .ok Clinic.age ∧
      Clinic.age.depth = 2 := by
  have valid : Clinic.schema.validate = .ok () := by cbv
  have pets : Clinic.schema.graph.attribute? "Owner" "pets" = some Clinic.pets := by cbv
  have age : Clinic.schema.graph.attribute? "Pet" "age" = some ⟨"age", .integer, .single⟩ := by cbv
  have toPet : Follows Clinic.schema.graph "Owner" ["pets"] "Pet" := .on pets rfl (.here "Pet")
  have blank : resolve Clinic.schema.graph "Owner" (Clinic.policy.allow "pets.") "pets." =
      .error (.unknownAttribute "pets." "Pet" "") :=
    ((resolve_iff_walk ..).2.2.1 _).mpr (.walk (by cbv) (by cbv) (.unknown (by cbv) toPet (by cbv)))
  have days : resolve Clinic.schema.graph "Owner" (Clinic.policy.allow "pets.age.days")
      "pets.age.days" = .error (.notTraversable "pets.age.days" "age" .integer) :=
    ((resolve_iff_walk ..).2.2.1 _).mpr (.walk (by cbv) (by cbv) (.scalar (by cbv) toPet age rfl))
  have found : resolve Clinic.schema.graph "Owner" Clinic.policy "pets.age" = .ok Clinic.age :=
    ((resolve_iff_walk ..).2.1 _).mpr ⟨by cbv, by cbv, .hop pets rfl (.target age)⟩
  have walk := resolve_iff_walk Clinic.schema.graph "Owner" "pets." (Clinic.policy.allow "pets.")
  have schema := walk.2.2.2 Clinic.schema rfl
  have whole := (resolve_iff_walk Clinic.schema.graph "Owner" "pets.age" Clinic.policy).2.2.2
    Clinic.schema rfl
  exact ⟨valid, blank, schema.2 valid _ _ _ blank, days, found, (whole.1 _ found).2.1⟩

end Path

end EntityFilter

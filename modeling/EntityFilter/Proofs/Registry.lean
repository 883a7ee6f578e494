import Mathlib
import EntityFilter.Proofs.Clinic
import EntityFilter.Proofs.Documents

namespace EntityFilter

/-- No later declaration has its name. -/
def EntityType.LastIn (e : EntityType) (es : List EntityType) : Prop :=
  ∃ before after, es = before ++ e :: after ∧ ∀ f ∈ after, f.name ≠ e.name

/-- No earlier attribute has its name. -/
def Attribute.FirstIn (a : Attribute) (as : List Attribute) : Prop :=
  ∃ before after, as = before ++ a :: after ∧ ∀ b ∈ before, b.name ≠ a.name

/-- An attribute is found under its name unless an earlier one has it. -/
theorem EntityType.attribute?_eq_some_iff {e : EntityType} {name : String} {a : Attribute} :
    e.attribute? name = some a ↔ a.FirstIn e.attributes ∧ a.name = name := by
  rw [EntityType.attribute?, List.find?_eq_some_iff_append]
  constructor
  · rintro ⟨named, before, after, whole, none⟩
    have here : a.name = name := by simpa using named
    exact ⟨⟨before, after, whole, fun b mem => by simpa [here] using none b mem⟩, here⟩
  · rintro ⟨⟨before, after, whole, none⟩, rfl⟩
    exact ⟨by simp, before, after, whole, fun b mem => by simpa using none b mem⟩

namespace Schema

variable {s : Schema} {e : EntityType} {es : List EntityType}

theorem toList_sorted (s : Schema) : s.toList.Pairwise fun e f => e.name < f.name :=
  List.pairwise_map.mpr s.table.sorted

theorem mem_toList : e ∈ s.toList ↔ s.entity? e.name = some e := by
  rw [toList, List.mem_map, entity?, Option.map_eq_some_iff]
  constructor
  · rintro ⟨⟨name, attributes⟩, mem, rfl⟩
    exact ⟨attributes, Table.get?_eq_some.mpr mem, rfl⟩
  · rintro ⟨attributes, found, here⟩
    exact ⟨(e.name, attributes), Table.get?_eq_some.mp found, here⟩

theorem table_ofList (es : List EntityType) :
    (ofList es).table = .ofList (es.map fun e => (e.name, e.attributes)) := by
  have folded : ∀ s : Schema, (es.foldl register s).table =
      (es.map fun e => (e.name, e.attributes)).foldl (fun t e => t.insert e.1 e.2) s.table := by
    induction es with
    | nil => exact fun s => rfl
    | cons e es ih => exact fun s => ih (s.register e)
  exact folded empty

/-- Of declarations under one name the last counts. -/
theorem entity?_ofList (es : List EntityType) (name : String) :
    (ofList es).entity? name = es.reverse.find? (·.name == name) := by
  rw [entity?, table_ofList, Table.get?_ofList, ← List.map_reverse, List.find?_map, Option.map_map,
    Option.map_map]
  change (es.reverse.find? (·.name == name)).map (fun e => (⟨name, e.attributes⟩ : EntityType)) = _
  cases found : es.reverse.find? (·.name == name) with
  | none => rfl
  | some e =>
    have named : e.name = name := by simpa using List.find?_some found
    cases named
    rfl

/-- Of declarations there is written back the last one under each name. -/
theorem mem_toList_ofList : e ∈ (ofList es).toList ↔ e.LastIn es := by
  rw [mem_toList, entity?_ofList, List.find?_eq_some_iff_append]
  constructor
  · rintro ⟨-, after, before, whole, none⟩
    refine ⟨before.reverse, after.reverse, ?_, fun f mem => ?_⟩
    · simpa using congrArg List.reverse whole
    · simpa using none f (List.mem_reverse.mp mem)
  · rintro ⟨before, after, rfl, none⟩
    refine ⟨by simp, after.reverse, before.reverse, by simp, fun f mem => ?_⟩
    simpa using none f (List.mem_reverse.mp mem)

/-- Declared again, what is written back makes the same schema. -/
theorem ofList_toList (s : Schema) : ofList s.toList = s := by
  have entries : (s.toList.map fun e => (e.name, e.attributes)) = s.table.entries := by
    rw [toList, List.map_map]
    exact List.map_id _
  have table : (ofList s.toList).table = s.table := by
    rw [table_ofList, entries]
    exact Table.ofList_of_perm (.refl _)
  exact congrArg Schema.mk table

/-- Lookup by names finds what is declared, and nothing else. -/
theorem attribute?_eq_some_iff {entity name : String} {a : Attribute} :
    s.attribute? entity name = some a ↔
      ∃ e ∈ s.toList, e.name = entity ∧ a.FirstIn e.attributes ∧ a.name = name := by
  rw [attribute?, Option.bind_eq_some_iff]
  constructor
  · rintro ⟨e, found, first⟩
    obtain ⟨attributes, _, rfl⟩ := Option.map_eq_some_iff.mp found
    exact ⟨_, mem_toList.mpr found, rfl, EntityType.attribute?_eq_some_iff.mp first⟩
  · rintro ⟨e, mem, rfl, first⟩
    exact ⟨e, mem_toList.mp mem, EntityType.attribute?_eq_some_iff.mpr first⟩

/-- An attribute refers to an entity that is not registered, as the error says. -/
def Dangles (s : Schema) (error : SchemaError) : Prop :=
  ∃ e ∈ s.toList, ∃ a ∈ e.attributes, ∃ target, a.type = .entity target ∧
    s.containsEntity target = false ∧ error = .unknownReference e.name a.name target

theorem danglingReference?_eq_some_iff {a : Attribute} {error : SchemaError} :
    s.danglingReference? e a = some error ↔ ∃ target, a.type = .entity target ∧
      s.containsEntity target = false ∧ error = .unknownReference e.name a.name target := by
  rw [danglingReference?, Option.bind_eq_some_iff]
  refine exists_congr fun target => and_congr AttributeType.entityName?_eq_some ?_
  cases s.containsEntity target <;> simp [eq_comm]

/-- A schema passes its check, or fails it for a reference that does dangle. Which one is told is
left open. -/
theorem checks_references (s : Schema) : (s.validate = .ok () ∧ ∀ error, ¬ s.Dangles error) ∨
    ∃ error, s.Dangles error ∧ s.validate = .error error := by
  unfold validate
  cases found : s.toList.findSome? fun e => e.attributes.findSome? (s.danglingReference? e) with
  | none =>
    refine .inl ⟨rfl, ?_⟩
    rintro error ⟨e, registered, a, declared, dangling⟩
    have sound := List.findSome?_eq_none_iff.mp (List.findSome?_eq_none_iff.mp found e registered) a
      declared
    rw [danglingReference?_eq_some_iff.mpr dangling] at sound
    cases sound
  | some error =>
    obtain ⟨e, registered, here⟩ := List.exists_of_findSome?_eq_some found
    obtain ⟨a, declared, dangling⟩ := List.exists_of_findSome?_eq_some here
    have fault := danglingReference?_eq_some_iff.mp dangling
    exact .inr ⟨error, ⟨e, registered, a, declared, fault⟩, rfl⟩

end Schema

namespace Policy

/-- An alias stands for nothing, as the error says. -/
def Blanks (p : Policy) (error : PolicyError) : Prop :=
  ∃ external, p.aliases.get? external = some "" ∧ error = .emptyAlias external

/-- A policy passes its check, or fails it for an alias for nothing. -/
theorem checks_aliases (p : Policy) : (p.validate = .ok () ∧ ∀ error, ¬ p.Blanks error) ∨
    ∃ error, p.Blanks error ∧ p.validate = .error error := by
  unfold validate
  cases found : p.aliases.entries.find? (·.2.isEmpty) with
  | none =>
    refine .inl ⟨rfl, ?_⟩
    rintro error ⟨external, blank, -⟩
    exact absurd rfl (List.find?_eq_none.mp found (external, "") (Table.get?_eq_some.mp blank))
  | some e =>
    obtain ⟨external, internal⟩ := e
    have blank : internal = "" := by simpa using List.find?_some found
    subst blank
    exact .inr ⟨_, ⟨external, Table.get?_eq_some.mpr (List.mem_of_find?_eq_some found), rfl⟩, rfl⟩

end Policy

/-- What passes its check is read back from each of its texts as it was. What does not is refused
for a fault that it has. -/
def ReadsBack {α ε : Type} (toJson : α → Json) (ofText : String → Except (DocumentError ε) α)
    (validate : α → Except ε Unit) (faulty : α → ε → Prop) : Prop :=
  ∀ x, (validate x = .ok () ↔ ∀ error, ¬ faulty x error) ∧
    ∀ text, (toJson x).Writes text →
      (validate x = .ok () → ofText text = .ok x) ∧
      (validate x ≠ .ok () → ∃ error, faulty x error ∧ ofText text = .error (.invalid error))

/-- What passes its check is read back from its texts as it was, and what does not is refused for a
fault that it has. Schemas and policies both are written and checked so. -/
theorem ReadsBack.of_checks {α ε : Type} {toJson : α → Json}
    {ofText : String → Except (DocumentError ε) α} {validate : α → Except ε Unit}
    {faulty : α → ε → Prop}
    (reads : ∀ x text, (toJson x).Writes text →
      ofText text = ((validate x).mapError .invalid).map fun () => x)
    (checks : ∀ x, (validate x = .ok () ∧ ∀ error, ¬ faulty x error) ∨
      ∃ error, faulty x error ∧ validate x = .error error) :
    ReadsBack toJson ofText validate faulty := by
  intro x
  rcases checks x with ⟨valid, sound⟩ | ⟨error, fault, invalid⟩
  · refine ⟨⟨fun _ => sound, fun _ => valid⟩, fun text written => ⟨fun _ => ?_, absurd valid⟩⟩
    rw [reads x text written, valid]
    rfl
  · have refused : validate x ≠ .ok () := by simp [invalid]
    refine ⟨⟨fun valid => absurd valid refused, fun sound => absurd fault (sound error)⟩,
      fun text written => ⟨fun valid => absurd valid refused, fun _ => ⟨error, fault, ?_⟩⟩⟩
    rw [reads x text written, invalid]
    rfl

namespace Schema

theorem ofText_written (s : Schema) (text : String) (written : s.toJson.Writes text) :
    ofText text = (s.validate.mapError .invalid).map fun () => s := by
  have read : Decoder.schema.run text = .ok s :=
    (s.ofList_toList ▸ Decoder.recovers_entities s.toList).run (by decide) written
  rw [ofText, read]
  rfl

theorem ofText_of_valid {s : Schema} (valid : s.validate = .ok ()) {text : String}
    (written : s.toJson.Writes text) : ofText text = .ok s := by
  rw [ofText_written s text written, valid]
  rfl

end Schema

theorem Policy.ofText_written (p : Policy) (text : String) (written : p.toJson.Writes text) :
    ofText text = (p.validate.mapError .invalid).map fun () => p := by
  rw [ofText, (Decoder.recovers_policy p).run (by decide) written]
  rfl

theorem Policy.ofText_of_valid {p : Policy} (valid : p.validate = .ok ()) {text : String}
    (written : p.toJson.Writes text) : ofText text = .ok p := by
  rw [ofText_written p text written, valid]
  rfl

/-- A schema made from declarations is written as a list sorted by name, and holds of each name the
last declaration with its attributes in order; of equally named attributes the first is found.
Written back it is the same schema. A schema in which every reference leads to a registered entity
is read from its texts as it was, and any other is refused for a reference of its own that does not.
Policies are read back in the same way, as long as no alias stands for nothing. -/
theorem Schema.registry_written_form :
    (∀ es : List EntityType,
      (ofList es).toList.Pairwise (fun e f => e.name < f.name) ∧
      (∀ e, e ∈ (ofList es).toList ↔ e.LastIn es) ∧
      ofList (ofList es).toList = ofList es ∧
      ∀ entity name a, (ofList es).attribute? entity name = some a ↔
        ∃ e : EntityType, e.LastIn es ∧ e.name = entity ∧ a.FirstIn e.attributes ∧ a.name = name) ∧
    ReadsBack toJson ofText validate Dangles ∧
    ReadsBack Policy.toJson Policy.ofText Policy.validate Policy.Blanks := by
  refine ⟨fun es => ⟨toList_sorted _, fun e => mem_toList_ofList, ofList_toList _, ?_⟩, ?_, ?_⟩
  · intro entity name a
    rw [attribute?_eq_some_iff]
    simp only [mem_toList_ofList]
  · exact .of_checks ofText_written checks_references
  · exact .of_checks Policy.ofText_written Policy.checks_aliases

/-- Of two declarations of a pet the last counts, the clinic is read back as it was, and a pet of
unregistered owners is refused, as is an alias for nothing. -/
theorem Schema.registry_written_form_of_clinic :
    (ofList [⟨"Pet", []⟩, ⟨"Owner", []⟩, ⟨"Pet", [⟨"name", .string, .single⟩]⟩]).toList =
      [⟨"Owner", []⟩, ⟨"Pet", [⟨"name", .string, .single⟩]⟩] ∧
    (⟨"Pet", [⟨"name", .string, .single⟩]⟩ : EntityType).LastIn
      [⟨"Pet", []⟩, ⟨"Owner", []⟩, ⟨"Pet", [⟨"name", .string, .single⟩]⟩] ∧
    Clinic.schema.validate = .ok () ∧ Clinic.schema.toJson.Writes Clinic.schema.toJson.pretty ∧
    ofText Clinic.schema.toJson.pretty = .ok Clinic.schema ∧
    (∃ error, (ofList [⟨"Pet", [Clinic.keptBy]⟩]).Dangles error ∧
      ofText (ofList [⟨"Pet", [Clinic.keptBy]⟩]).toJson.compact = .error (.invalid error)) ∧
    Policy.ofText Clinic.policy.toJson.compact = .ok Clinic.policy ∧
    ∃ error, (Clinic.policy.addAlias "phone" "").Blanks error ∧
      Policy.ofText (Clinic.policy.addAlias "phone" "").toJson.pretty =
        .error (.invalid error) := by
  obtain ⟨registered, schemas, policies⟩ := registry_written_form
  have listed :
      (ofList [⟨"Pet", []⟩, ⟨"Owner", []⟩, ⟨"Pet", [⟨"name", .string, .single⟩]⟩]).toList =
        [⟨"Owner", []⟩, ⟨"Pet", [⟨"name", .string, .single⟩]⟩] := by decide
  refine ⟨listed, ((registered _).2.1 _).mp (by simp [listed]), by decide, Json.writes_pretty _,
    ((schemas _).2 _ (Json.writes_pretty _)).1 (by decide),
    ((schemas _).2 _ (Json.writes_compact _)).2 (by decide),
    ((policies _).2 _ (Json.writes_compact _)).1 (by decide),
    ((policies _).2 _ (Json.writes_pretty _)).2 (by decide)⟩

end EntityFilter

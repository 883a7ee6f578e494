import EntityFilter.Filter.Evaluation
import EntityFilter.Proofs.Fallible
import EntityFilter.Proofs.Resolution
import EntityFilter.Proofs.Typing

namespace EntityFilter.Record

open Fallible Predicate

mutual

/-- What a record has of an entity's attributes, nulls aside, is of the declared shape. -/
inductive Conforms (graph : AttributeGraph) : String → Json → Prop where
  | intro {entity : String} {record : Json}
    (shaped : ∀ name a v, graph.attribute? entity name = some a → field? a.name record = some v →
      Shaped graph a v) : Conforms graph entity record

/-- An element, or an array of elements and nulls where a collection is declared. -/
inductive Shaped (graph : AttributeGraph) : Attribute → Json → Prop where
  | single {a : Attribute} {v : Json} (single : a.isCollection = false)
    (element : Element graph a.type v) : Shaped graph a v
  | collection {a : Attribute} {items : List Json} (collection : a.isCollection = true)
    (elements : ∀ item ∈ items, item.isNull = false → Element graph a.type item) :
    Shaped graph a (.array items)

/-- An object of the entity referred to, or a value that can be read as the type. -/
inductive Element (graph : AttributeGraph) : AttributeType → Json → Prop where
  | object {entity : String} {fields : List (String × Json)}
    (conforms : Conforms graph entity (.object fields)) :
    Element graph (.entity entity) (.object fields)
  | value {t : AttributeType} {stored : Json} {v : Value} (read : valueOf? t stored = some v) :
    Element graph t stored

end

variable {graph : AttributeGraph} {path : Path} {entity : String}

theorem Conforms.shaped {name : String} {a : Attribute} {record v : Json}
    (h : Conforms graph entity record) (found : graph.attribute? entity name = some a)
    (field : field? a.name record = some v) : Shaped graph a v := by
  cases h with
  | intro shaped => exact shaped name a v found field

theorem asEntity_of_element (path : Path) {hop : Attribute} {next : String} {item : Json}
    (refers : hop.type = .entity next) (h : item.isNull = false → Element graph hop.type item) :
    ∃ parent, asEntity path hop item = .ok parent ∧ ∀ r ∈ parent, Conforms graph next r := by
  cases hn : item.isNull with
  | true =>
    cases item <;> cases hn
    exact ⟨none, rfl, by simp⟩
  | false =>
    have element := h hn
    rw [refers] at element
    cases element with
    | object conforms => exact ⟨_, rfl, by simpa using conforms⟩
    | value read => cases item <;> cases read

/-- A hop leads from a record of an entity to records of the entity it refers to. -/
theorem follow_of_conforms (path : Path) {hop : Attribute} {name next : String}
    {parent : Option Json} (found : graph.attribute? entity name = some hop)
    (refers : hop.type = .entity next) (h : ∀ r ∈ parent, Conforms graph entity r) :
    ∃ ps, follow path hop parent = .ok ps ∧ ∀ p ∈ ps, ∀ r ∈ p, Conforms graph next r := by
  unfold follow
  split
  · refine ⟨_, rfl, fun p hp r hr => ?_⟩
    split at hp
    · cases hp
    · rw [List.mem_singleton.mp hp] at hr
      cases hr
  · rename_i v field
    obtain ⟨record, hr, field⟩ := Option.bind_eq_some_iff.mp field
    cases (h record hr).shaped found field with
    | single single element =>
      obtain ⟨p, ok, conforms⟩ := asEntity_of_element path refers fun _ => element
      exact ⟨[p], by simp [single, ok, Except.map], by simpa using conforms⟩
    | collection collection elements =>
      simp only [collection, ↓reduceIte]
      exact mapM_total fun item hi => asEntity_of_element path refers (elements item hi)

/-- From a record that conforms a chain of attributes leads to records that conform again, so
nothing is invalid on the way. -/
theorem followAll_of_conforms (path : Path) {names : List String} {hops : List Attribute}
    {target : Attribute} (leads : Leads graph entity names hops target)
    {frontier : List (Option Json)}
    (h : ∀ p ∈ frontier, ∀ r ∈ p, Conforms graph entity r) :
    ∃ ps owner name, followAll path hops frontier = .ok ps ∧
      graph.attribute? owner name = some target ∧ ∀ p ∈ ps, ∀ r ∈ p, Conforms graph owner r := by
  induction leads generalizing frontier with
  | target found => exact ⟨frontier, _, _, rfl, found, h⟩
  | @hop _ _ owner _ _ _ _ found refers _ ih =>
    obtain ⟨next, ok, conforms⟩ :=
      mapM_total fun p hp => follow_of_conforms path found refers (h p hp)
    have flat : ∀ p ∈ next.flatten, ∀ r ∈ p, Conforms graph owner r := by
      intro p hp r hr
      obtain ⟨ps, hps, hp⟩ := List.mem_flatten.mp hp
      exact conforms ps hps p hp r hr
    obtain ⟨ps, owner, name, all, last, reached⟩ := ih flat
    exact ⟨ps, owner, name, bind_eq_ok.mpr ⟨next, ok, all⟩, last, reached⟩

/-- From a conforming record a path reaches values that are elements of its target's type. -/
theorem values_of_conforms {names : List String} {record : Json}
    (leads : Leads graph entity names path.hops path.target) (h : Conforms graph entity record) :
    ∃ vs, values record path = .ok vs ∧
      ∀ v ∈ vs, ∀ stored ∈ v, stored.isNull = false → Element graph path.target.type stored := by
  have root : ∀ p ∈ [some record], ∀ r ∈ p, Conforms graph entity r := by simpa using h
  obtain ⟨ps, owner, name, all, found, conforms⟩ := followAll_of_conforms path leads root
  have step : ∀ p ∈ ps, ∃ vs, targetValues path p = .ok vs ∧
      ∀ v ∈ vs, ∀ stored ∈ v, stored.isNull = false → Element graph path.target.type stored := by
    intro p hp
    simp only [targetValues]
    cases field : p.bind (field? path.target.name) with
    | none =>
      split
      · exact ⟨[], rfl, by simp⟩
      · exact ⟨[none], rfl, by simp⟩
    | some v =>
      obtain ⟨owned, ho, field⟩ := Option.bind_eq_some_iff.mp field
      cases (conforms p hp owned ho).shaped found field with
      | single single element =>
        refine ⟨[some v], by simp [Path.isCollectionValued, single], ?_⟩
        simpa using fun _ => element
      | @collection _ items collection elements =>
        refine ⟨items.map some, by simp [Path.isCollectionValued, collection], ?_⟩
        simpa using elements
  obtain ⟨vss, ok, elements⟩ := mapM_total step
  refine ⟨vss.flatten, bind_eq_ok.mpr ⟨ps, all, bind_eq_ok.mpr ⟨vss, ok, rfl⟩⟩, fun v hv => ?_⟩
  obtain ⟨vs, hvs, hv⟩ := List.mem_flatten.mp hv
  exact elements vs hvs v hv

/-- The sizes in a conforming record can always be told. -/
theorem counts_of_conforms {names : List String} {record : Json}
    (leads : Leads graph entity names path.hops path.target) (h : Conforms graph entity record)
    (collection : path.isCollectionValued = true) : ∃ ns, counts record path = .ok ns := by
  have root : ∀ p ∈ [some record], ∀ r ∈ p, Conforms graph entity r := by simpa using h
  obtain ⟨ps, owner, name, all, found, conforms⟩ := followAll_of_conforms path leads root
  have step : ∀ p ∈ ps.filterMap id, ∃ n, targetCount path p = .ok n ∧ True := by
    intro owned ho
    have owned := conforms (some owned) (by simpa using ho) owned rfl
    simp only [targetCount]
    split
    · exact ⟨0, rfl, trivial⟩
    · exact ⟨_, rfl, trivial⟩
    · rename_i v noArray field
      cases owned.shaped found field with
      | single single => simp [Path.isCollectionValued, single] at collection
      | collection => exact absurd rfl (noArray _)
  obtain ⟨ns, ok, _⟩ := mapM_total step
  exact ⟨ns, bind_eq_ok.mpr ⟨ps, all, ok⟩⟩

/-- The failure is about the data that the path leads to. -/
def IsInvalid (path : Path) (x : ExecutionError) : Prop :=
  ∃ expected found, x = .invalidField path.selector expected found

theorem isInvalid_invalid (path : Path) (expected : String) (found : Json) :
    IsInvalid path (invalid path expected found) :=
  ⟨expected, found.compact, rfl⟩

theorem asEntity_error {hop : Attribute} {v : Json} {x : ExecutionError}
    (h : asEntity path hop v = .error x) : IsInvalid path x := by
  cases v <;> cases h <;> exact isInvalid_invalid ..

theorem follow_error {hop : Attribute} {parent : Option Json} {x : ExecutionError}
    (h : follow path hop parent = .error x) : IsInvalid path x := by
  unfold follow at h
  split at h
  · cases h
  · split at h
    · split at h
      · obtain ⟨item, _, he⟩ := mapM_error_mem h
        exact asEntity_error he
      · cases h
        exact isInvalid_invalid ..
    · exact asEntity_error (map_eq_error.mp h)

theorem followAll_error {hops : List Attribute} {frontier : List (Option Json)} {x : ExecutionError}
    (h : followAll path hops frontier = .error x) : IsInvalid path x := by
  induction hops generalizing frontier with
  | nil => cases h
  | cons hop hops ih =>
    rcases bind_eq_error.mp h with h | ⟨next, _, h⟩
    · obtain ⟨p, _, he⟩ := mapM_error_mem h
      exact follow_error he
    · exact ih h

theorem targetValues_error {parent : Option Json} {x : ExecutionError}
    (h : targetValues path parent = .error x) : IsInvalid path x := by
  simp only [targetValues] at h
  split at h
  · split at h
    · cases h
    · cases h
    · cases h
      exact isInvalid_invalid ..
  · cases h

/-- What fails on the way to the target is invalid data. -/
theorem values_error {record : Json} {x : ExecutionError} (h : values record path = .error x) :
    IsInvalid path x := by
  rcases bind_eq_error.mp h with h | ⟨ps, _, h⟩
  · exact followAll_error h
  · rcases bind_eq_error.mp h with h | ⟨vs, _, h⟩
    · obtain ⟨p, _, he⟩ := mapM_error_mem h
      exact targetValues_error he
    · cases h

theorem counts_error {record : Json} {x : ExecutionError} (h : counts record path = .error x) :
    IsInvalid path x := by
  rcases bind_eq_error.mp h with h | ⟨ps, _, h⟩
  · exact followAll_error h
  · obtain ⟨p, _, he⟩ := mapM_error_mem h
    simp only [targetCount] at he
    split at he
    · cases he
    · cases he
    · cases he
      exact isInvalid_invalid ..

theorem read_eq (path : Path) (stored : Json) :
    read path stored =
      if stored.isNull then .ok none
      else
        match valueOf? path.target.type stored with
        | some v => .ok (some v)
        | none => .error (invalid path path.target.type.display stored) := by
  cases stored <;> rfl

end EntityFilter.Record

namespace EntityFilter.Predicate

open Fallible Record

variable {graph : AttributeGraph} {path : Path} {record : Json}
  {test : Value → Except ExecutionError Bool} {x : ExecutionError}

/-- A test of a stored value fails because the value cannot be read, or by itself. -/
theorem testStored_error {field : Option Json} (h : testStored path test field = .error x) :
    ∃ stored ∈ field, stored.isNull = false ∧
      ((IsInvalid path x ∧ valueOf? path.target.type stored = none) ∨
        ∃ v, valueOf? path.target.type stored = some v ∧ test v = .error x) := by
  cases field with
  | none => cases h
  | some stored =>
    simp only [testStored, read_eq] at h
    cases notNull : stored.isNull with
    | true => simp [notNull] at h
    | false =>
      refine ⟨stored, rfl, notNull, ?_⟩
      simp only [notNull, Bool.false_eq_true, ↓reduceIte] at h
      cases read : valueOf? path.target.type stored with
      | none =>
        simp only [read, Except.error.injEq] at h
        subst h
        exact .inl ⟨isInvalid_invalid .., rfl⟩
      | some v =>
        simp only [read] at h
        exact .inr ⟨v, rfl, map_eq_error.mp h⟩

/-- A test of the values that a path reaches fails for invalid data or on a value of the declared
type. -/
theorem someValue_error (h : someValue record path test = .error x) :
    IsInvalid path x ∨ ∃ v, Value.isOf path.target.type v = true ∧ test v = .error x := by
  rcases bind_eq_error.mp h with h | ⟨vs, _, h⟩
  · exact .inl (values_error h)
  · obtain ⟨field, _, he⟩ := any_error_mem h
    obtain ⟨stored, _, _, ⟨invalid, _⟩ | ⟨v, read, failed⟩⟩ := testStored_error he
    · exact .inl invalid
    · exact .inr ⟨v, Value.isOf_valueOf? read, failed⟩

/-- On a conforming record it fails on such a value only. -/
theorem someValue_error_of_conforms {entity : String} {names : List String}
    (leads : Leads graph entity names path.hops path.target) (conforms : Conforms graph entity record)
    (plain : path.target.type.isEntity = false) (h : someValue record path test = .error x) :
    ∃ v, Value.isOf path.target.type v = true ∧ test v = .error x := by
  obtain ⟨vs, ok, elements⟩ := values_of_conforms leads conforms
  rcases bind_eq_error.mp h with h | ⟨ws, same, h⟩
  · rw [ok] at h
    cases h
  · rw [ok] at same
    cases same
    obtain ⟨field, mem, he⟩ := any_error_mem h
    obtain ⟨stored, hs, notNull, ⟨_, unread⟩ | ⟨v, read, failed⟩⟩ := testStored_error he
    · generalize path.target.type = t at plain unread elements
      cases elements field mem stored hs notNull with
      | object => cases plain
      | value read =>
        rw [unread] at read
        cases read
    · exact ⟨v, Value.isOf_valueOf? read, failed⟩

end EntityFilter.Predicate

import EntityFilter.Proofs.Completion
import EntityFilter.Proofs.Conformity
import EntityFilter.Proofs.Joins

namespace EntityFilter

open Fallible

namespace Record

/-- The value of a hop's field is that object or, if the hop is a collection, an array that has it.
-/
def HopTo (hop : Attribute) (v o : Json) : Prop :=
  (∃ fields, o = .object fields) ∧
    if hop.isCollection then ∃ items, v = .array items ∧ o ∈ items else v = o

/-- The hops lead from the first value to the second. -/
inductive Reaches : List Attribute → Json → Json → Prop where
  | here (v : Json) : Reaches [] v v
  | step {hop : Attribute} {hops : List Attribute} {start v o finish : Json}
    (field : start.get? hop.name = some v) (first : HopTo hop v o) (rest : Reaches hops o finish) :
    Reaches (hop :: hops) start finish

/-- An object, or an array of objects and nulls where a collection is declared. -/
def FitsHop (hop : Attribute) (v : Json) : Prop :=
  if hop.isCollection then
    ∃ items, v = .array items ∧ ∀ item ∈ items, item = .null ∨ ∃ fields, item = .object fields
  else ∃ fields, v = .object fields

/-- Whatever is reached, its field for the next hop is missing or null, or it fits the hop. -/
def HopsFit (hops : List Attribute) (record : Json) : Prop :=
  ∀ before hop after, hops = before ++ hop :: after → ∀ o, Reaches before record o →
    ∀ v, o.get? hop.name = some v → v = .null ∨ FitsHop hop v

/-- Every target that is reached is missing or null, or it is an array. -/
def TargetsFit (path : Path) (record : Json) : Prop :=
  ∀ o, Reaches path.hops record o → ∀ v, o.get? path.target.name = some v →
    v = .null ∨ ∃ items, v = .array items

variable {path : Path} {hop : Attribute} {hops : List Attribute}

theorem Reaches.cons_iff {start finish : Json} :
    Reaches (hop :: hops) start finish ↔ ∃ o, Reaches [hop] start o ∧ Reaches hops o finish := by
  constructor
  · intro h
    cases h with
    | step field first rest => exact ⟨_, .step field first (.here _), rest⟩
  · rintro ⟨o, alone, rest⟩
    cases alone with
    | step field first last =>
      cases last
      exact .step field first rest

/-- Hops fit a record if the first does and the others fit the objects it leads to. -/
theorem HopsFit.cons_iff {record : Json} :
    HopsFit (hop :: hops) record ↔
      (∀ v, record.get? hop.name = some v → v = .null ∨ FitsHop hop v) ∧
        ∀ o, Reaches [hop] record o → HopsFit hops o := by
  constructor
  · intro h
    constructor
    · exact h [] hop hops rfl record (.here record)
    · intro o first before next after split w rest
      have reached : Reaches (hop :: before) record w := Reaches.cons_iff.mpr ⟨o, first, rest⟩
      exact h (hop :: before) next after (congrArg (hop :: ·) split) w reached
  · rintro ⟨here, onward⟩ before next after split w rest
    cases before with
    | nil =>
      cases split
      cases rest
      exact here
    | cons first before =>
      cases split
      obtain ⟨o, step, rest⟩ := Reaches.cons_iff.mp rest
      exact onward o step before next after rfl w rest

theorem field?_eq_some {name : String} {record v : Json} :
    field? name record = some v ↔ record.get? name = some v ∧ v ≠ .null := by
  have notNull : (!v.isNull) = true ↔ v ≠ .null := by cases v <;> simp [Json.isNull]
  rw [field?, Option.filter_eq_some_iff, notNull]

/-- What a field holds besides nothing and null. -/
theorem forall_field?_iff {name : String} {parent : Option Json} {P : Json → Prop} :
    (∀ v, parent.bind (field? name) = some v → P v) ↔
      ∀ o ∈ parent, ∀ v, o.get? name = some v → v = .null ∨ P v := by
  constructor
  · intro holds o ho v field
    by_cases null : v = .null
    · exact .inl null
    · exact .inr (holds v (Option.bind_eq_some_iff.mpr ⟨o, ho, field?_eq_some.mpr ⟨field, null⟩⟩))
  · intro holds v found
    obtain ⟨o, ho, found⟩ := Option.bind_eq_some_iff.mp found
    obtain ⟨field, notNull⟩ := field?_eq_some.mp found
    exact (holds o ho v field).resolve_left notNull

theorem asEntity_ok_iff {v : Json} :
    (∃ place, asEntity path hop v = .ok place) ↔ v = .null ∨ ∃ fields, v = .object fields := by
  cases v <;> simp [asEntity]

theorem asEntity_some_iff {v o : Json} :
    asEntity path hop v = .ok (some o) ↔ v = o ∧ ∃ fields, o = .object fields := by
  constructor
  · intro h
    cases v with
    | object fields =>
      cases h
      exact ⟨rfl, fields, rfl⟩
    | _ => cases h
  · rintro ⟨rfl, fields, rfl⟩
    rfl

theorem elements_ok_iff {items : List Json} :
    (∃ places, items.mapM (asEntity path hop) = .ok places) ↔
      ∀ item ∈ items, item = .null ∨ ∃ fields, item = .object fields := by
  rw [mapM_ok_iff]
  exact forall₂_congr fun item _ => asEntity_ok_iff

/-- A hop can be followed from an object that has what it asks for, or nothing, or a null. -/
theorem follow_ok_iff {parent : Option Json} :
    (∃ next, follow path hop parent = .ok next) ↔
      ∀ o ∈ parent, ∀ v, o.get? hop.name = some v → v = .null ∨ FitsHop hop v := by
  rw [← forall_field?_iff]
  cases found : parent.bind (field? hop.name) with
  | none => simp [follow, found]
  | some v =>
    have notNull : v ≠ .null := by
      obtain ⟨o, _, field⟩ := Option.bind_eq_some_iff.mp found
      exact (field?_eq_some.mp field).2
    cases collection : hop.isCollection with
    | false =>
      have entity : (∃ place, asEntity path hop v = .ok place) ↔ ∃ fields, v = .object fields := by
        rw [asEntity_ok_iff, or_iff_right notNull]
      simpa [follow, found, FitsHop, collection, map_eq_ok] using entity
    | true => cases v <;> simp [follow, found, FitsHop, collection, elements_ok_iff]

theorem HopTo.ne_null {v o : Json} (h : HopTo hop v o) : v ≠ .null := by
  rintro rfl
  obtain ⟨⟨fields, rfl⟩, place⟩ := h
  cases hop.isCollection <;> simp at place

theorem Reaches.hop_iff {o o' : Json} :
    Reaches [hop] o o' ↔ ∃ v, field? hop.name o = some v ∧ HopTo hop v o' := by
  constructor
  · intro h
    cases h with
    | step field first last =>
      cases last
      exact ⟨_, field?_eq_some.mpr ⟨field, first.ne_null⟩, first⟩
  · rintro ⟨v, found, first⟩
    exact .step (field?_eq_some.mp found).1 first (.here o')

/-- The objects among what a hop is followed to are those that it leads to. -/
theorem mem_follow {parent : Option Json} {next : List (Option Json)}
    (h : follow path hop parent = .ok next) {o' : Json} :
    some o' ∈ next ↔ ∃ o ∈ parent, Reaches [hop] o o' := by
  have places : some o' ∈ next ↔ ∃ v, parent.bind (field? hop.name) = some v ∧ HopTo hop v o' := by
    cases found : parent.bind (field? hop.name) with
    | none =>
      simp only [follow, found, Except.ok.injEq] at h
      subst h
      cases hop.isCollection <;> simp
    | some v =>
      cases collection : hop.isCollection with
      | false =>
        simp only [follow, found, collection] at h
        obtain ⟨place, entity, rfl⟩ := map_eq_ok.mp h
        have same : some o' ∈ [place] ↔ asEntity path hop v = .ok (some o') := by
          rw [entity]
          simp [eq_comm]
        rw [same, asEntity_some_iff]
        simp [HopTo, collection, and_comm]
      | true =>
        simp only [follow, found, collection, if_true] at h
        cases v with
        | array items =>
          rw [mapM_mem_iff h]
          simp only [asEntity_some_iff]
          simp [HopTo, collection, and_comm]
        | _ => cases h
  rw [places]
  simp only [Reaches.hop_iff, Option.bind_eq_some_iff, Option.mem_def]
  constructor
  · rintro ⟨v, ⟨o, ho, field⟩, first⟩
    exact ⟨o, ho, v, field, first⟩
  · rintro ⟨o, ho, v, field, first⟩
    exact ⟨v, ⟨o, ho, field⟩, first⟩

theorem mem_step {frontier : List (Option Json)} {next : List (List (Option Json))}
    (h : frontier.mapM (follow path hop) = .ok next) {o' : Json} :
    some o' ∈ next.flatten ↔ ∃ o, some o ∈ frontier ∧ Reaches [hop] o o' := by
  constructor
  · intro mem
    obtain ⟨found, hf, mem⟩ := List.mem_flatten.mp mem
    obtain ⟨parent, hp, followed⟩ := (mapM_mem_iff h).mp hf
    obtain ⟨o, rfl, reached⟩ := (mem_follow followed).mp mem
    exact ⟨o, hp, reached⟩
  · rintro ⟨o, ho, reached⟩
    obtain ⟨found, followed⟩ := mapM_ok_all h _ ho
    exact List.mem_flatten.mpr
      ⟨found, (mapM_mem_iff h).mpr ⟨_, ho, followed⟩, (mem_follow followed).mpr ⟨o, rfl, reached⟩⟩

/-- Hops lead to the objects that the values under their names are or have. -/
theorem mem_followAll {frontier places : List (Option Json)}
    (h : followAll path hops frontier = .ok places) {o' : Json} :
    some o' ∈ places ↔ ∃ o, some o ∈ frontier ∧ Reaches hops o o' := by
  induction hops generalizing frontier with
  | nil =>
    cases h
    constructor
    · intro mem
      exact ⟨o', mem, .here o'⟩
    · rintro ⟨o, mem, ⟨⟩⟩
      exact mem
  | cons hop hops ih =>
    obtain ⟨next, step, h⟩ := bind_eq_ok.mp h
    rw [ih h]
    constructor
    · rintro ⟨m, mem, rest⟩
      obtain ⟨o, ho, first⟩ := (mem_step step).mp mem
      exact ⟨o, ho, Reaches.cons_iff.mpr ⟨m, first, rest⟩⟩
    · rintro ⟨o, ho, reached⟩
      obtain ⟨m, first, rest⟩ := Reaches.cons_iff.mp reached
      exact ⟨m, (mem_step step).mpr ⟨o, ho, first⟩, rest⟩

/-- All that the hops reach is checked, in whatever place it stands. -/
theorem followAll_ok_iff {frontier : List (Option Json)} :
    (∃ places, followAll path hops frontier = .ok places) ↔
      ∀ o, some o ∈ frontier → HopsFit hops o := by
  induction hops generalizing frontier with
  | nil =>
    have noHops : ∀ o, HopsFit [] o := by
      intro o before next after split
      simp at split
    exact ⟨fun _ o _ => noHops o, fun _ => ⟨frontier, rfl⟩⟩
  | cons hop hops ih =>
    have steps : (∃ next, frontier.mapM (follow path hop) = .ok next) ↔
        ∀ o, some o ∈ frontier → ∀ v, o.get? hop.name = some v → v = .null ∨ FitsHop hop v := by
      rw [mapM_ok_iff]
      constructor
      · intro each o ho
        exact follow_ok_iff.mp (each _ ho) o rfl
      · intro each parent hp
        apply follow_ok_iff.mpr
        rintro o rfl
        exact each o hp
    constructor
    · rintro ⟨places, h⟩ o ho
      obtain ⟨next, step, h⟩ := bind_eq_ok.mp h
      refine HopsFit.cons_iff.mpr ⟨steps.mp ⟨next, step⟩ o ho, fun m first => ?_⟩
      exact ih.mp ⟨places, h⟩ m ((mem_step step).mpr ⟨o, ho, first⟩)
    · intro fits
      obtain ⟨next, step⟩ := steps.mpr fun o ho => (HopsFit.cons_iff.mp (fits o ho)).1
      have onward : ∀ m, some m ∈ next.flatten → HopsFit hops m := by
        intro m mem
        obtain ⟨o, ho, first⟩ := (mem_step step).mp mem
        exact (HopsFit.cons_iff.mp (fits o ho)).2 m first
      obtain ⟨places, h⟩ := ih.mpr onward
      exact ⟨places, bind_eq_ok.mpr ⟨next, step, h⟩⟩

section

variable {record : Json}

/-- Whether the hops fit is settled before anything is compared or counted. -/
theorem parents_ok_iff : (∃ ps, parents record path = .ok ps) ↔ HopsFit path.hops record := by
  simp [parents, followAll_ok_iff]

theorem mem_parents {ps : List (Option Json)} (h : parents record path = .ok ps) {o : Json} :
    some o ∈ ps ↔ Reaches path.hops record o := by
  simp [mem_followAll h]

/-- A target that is a collection has to be an array where it is there at all. -/
theorem targetValues_ok_iff {parent : Option Json} :
    (∃ vs, targetValues path parent = .ok vs) ↔ (path.isCollectionValued = true →
      ∀ o ∈ parent, ∀ v, o.get? path.target.name = some v →
        v = .null ∨ ∃ items, v = .array items) := by
  rw [← forall_field?_iff]
  unfold targetValues
  cases path.isCollectionValued with
  | false => simp
  | true =>
    cases parent.bind (field? path.target.name) with
    | none => simp
    | some v => cases v <;> simp

/-- There are values if the hops can be gone and, where it is a collection, the target is one. -/
theorem values_ok_iff : (∃ vs, values record path = .ok vs) ↔
    HopsFit path.hops record ∧ (path.isCollectionValued = true → TargetsFit path record) := by
  constructor
  · rintro ⟨vs, h⟩
    obtain ⟨ps, walked, h⟩ := bind_eq_ok.mp h
    obtain ⟨found, targets, _⟩ := bind_eq_ok.mp h
    refine ⟨parents_ok_iff.mp ⟨ps, walked⟩, fun collection o reached => ?_⟩
    have target := mapM_ok_all targets (some o) ((mem_parents walked).mpr reached)
    exact targetValues_ok_iff.mp target collection o rfl
  · rintro ⟨hops, targets⟩
    obtain ⟨ps, walked⟩ := parents_ok_iff.mpr hops
    have each : ∀ p ∈ ps, ∃ vs, targetValues path p = .ok vs := by
      intro p hp
      apply targetValues_ok_iff.mpr
      rintro collection o rfl
      exact targets collection o ((mem_parents walked).mp hp)
    obtain ⟨found, targets⟩ := mapM_ok_iff.mpr each
    exact ⟨found.flatten, bind_eq_ok.mpr ⟨ps, walked, bind_eq_ok.mpr ⟨found, targets, rfl⟩⟩⟩

end

end Record

namespace Predicate

open Record

variable {path : Path}

section

variable (collection : path.isCollectionValued = true)

include collection

/-- Counting the elements in one parent is looking at them, failures and all. -/
theorem sum_sizes (parent : Option Json) :
    (sizes path parent).map List.sum = (targetValues path parent).map List.length := by
  cases parent with
  | none => simp [sizes, targetValues, collection, Except.map]
  | some o =>
    simp only [sizes, targetCount, targetValues, collection, if_true, Option.bind_some]
    cases field? path.target.name o with
    | none => rfl
    | some v => cases v <;> simp [Except.map]

/-- Counting and looking fail alike, and the sizes add up to the number of elements. -/
theorem sum_counts (record : Json) :
    (counts record path).map List.sum = (values record path).map List.length := by
  unfold counts values
  cases parents record path with
  | error x => rfl
  | ok ps =>
    have each : (ps.mapM (sizes path)).map (List.map List.sum) =
        (ps.mapM (targetValues path)).map (List.map List.length) := by
      rw [← mapM_map_result, ← mapM_map_result, funext (sum_sizes collection)]
    calc ((ps.filterMap id).mapM (targetCount path)).map List.sum
        = ((ps.mapM (sizes path)).map List.flatten).map List.sum := by rw [mapM_sizes]
      _ = ((ps.mapM (sizes path)).map (List.map List.sum)).map List.sum := by
        cases ps.mapM (sizes path) <;> simp [Except.map, List.sum_flatten]
      _ = ((ps.mapM (targetValues path)).map (List.map List.length)).map List.sum := by rw [each]
      _ = ((ps.mapM (targetValues path)) >>= fun vs => .ok vs.flatten).map List.length := by
        cases ps.mapM (targetValues path) <;>
          simp [Except.map, bind, Except.bind, List.length_flatten]

theorem values_error_iff {record : Json} {x : ExecutionError} :
    values record path = .error x ↔ counts record path = .error x := by
  rw [← map_eq_error, ← sum_counts collection, map_eq_error]

/-- A target can be counted just where its values can be taken. -/
theorem counts_ok_iff {record : Json} :
    (∃ ns, counts record path = .ok ns) ↔ ∃ vs, values record path = .ok vs := by
  constructor
  · rintro ⟨ns, h⟩
    have counted := sum_counts collection record
    rw [h] at counted
    obtain ⟨vs, found, _⟩ := map_eq_ok.mp counted.symm
    exact ⟨vs, found⟩
  · rintro ⟨vs, h⟩
    have counted := sum_counts collection record
    rw [h] at counted
    obtain ⟨ns, found, _⟩ := map_eq_ok.mp counted
    exact ⟨ns, found⟩

end

/-- No match hides what is malformed on the way to the target. Unless its pattern is refused, or a
size is compared with what is no integer, a leaf fails for just that. -/
theorem Leaf.eval_unreached (engine : RegexEngine) (leaf : Leaf) {record : Json}
    {x : ExecutionError} (h : parents record path = .error x) :
    (∃ y, (leaf.on path).eval engine record = .error y) ∧
      (leaf.IsIntegral →
        (leaf.on path).eval engine record = (leaf.ready engine >>= fun _ => .error x)) := by
  have unseen : values record path = .error x := bind_eq_error.mpr (.inl h)
  have uncounted : counts record path = .error x := bind_eq_error.mpr (.inl h)
  have untested : ∀ test, someValue record path test = .error x :=
    fun test => bind_eq_error.mpr (.inl unseen)
  have fails : leaf.IsIntegral →
      (leaf.on path).eval engine record = (leaf.ready engine >>= fun _ => .error x) := by
    intro integral
    have lost : leaf.found record path = .error x := by
      cases leaf with
      | size r v =>
        obtain ⟨n, rfl⟩ := integral
        exact bind_eq_error.mpr (.inl uncounted)
      | _ => exact untested _
    rw [eval_on, lost]
    rfl
  have never (integral : leaf.IsIntegral) : ∃ y, (leaf.on path).eval engine record = .error y := by
    rw [fails integral]
    cases leaf.ready engine with
    | ok ready => exact ⟨x, rfl⟩
    | error y => exact ⟨y, rfl⟩
  refine ⟨?_, fails⟩
  cases leaf with
  | size r v =>
    cases v with
    | integer n => exact never ⟨n, rfl⟩
    | _ => exact ⟨_, rfl⟩
  | _ => exact never trivial

/-- Looking at a collection and counting it are refused alike, with the same failure, and only where
what the hops reach or the target is malformed; what is seen is as much as is counted. No leaf is
evaluated where what the hops reach is malformed, whatever else they reach. -/
theorem structure_checked (engine : RegexEngine) (path : Path) (record : Json) :
    (path.isCollectionValued = true →
      (∀ x, values record path = .error x ↔ counts record path = .error x) ∧
      ((∃ vs, values record path = .ok vs) ↔ HopsFit path.hops record ∧ TargetsFit path record) ∧
      ((∃ ns, counts record path = .ok ns) ↔ HopsFit path.hops record ∧ TargetsFit path record) ∧
      ∀ vs ns, values record path = .ok vs → counts record path = .ok ns → ns.sum = vs.length) ∧
    (path.isCollectionValued = false →
      ((∃ vs, values record path = .ok vs) ↔ HopsFit path.hops record)) ∧
    (∀ x, values record path = .error x → IsInvalid path x) ∧
    (¬ HopsFit path.hops record → ∃ x, IsInvalid path x ∧ ∀ leaf : Leaf,
      (∃ y, (leaf.on path).eval engine record = .error y) ∧
        (leaf.IsIntegral →
          (leaf.on path).eval engine record = (leaf.ready engine >>= fun _ => .error x))) := by
  have seen := @values_ok_iff path record
  refine ⟨fun collection => ?_, fun single => ?_, fun x => values_error, fun malformed => ?_⟩
  · have fits : (∃ vs, values record path = .ok vs) ↔
        HopsFit path.hops record ∧ TargetsFit path record := by simpa [collection] using seen
    refine ⟨fun x => values_error_iff collection, fits, (counts_ok_iff collection).trans fits, ?_⟩
    intro vs ns found counted
    have same := sum_counts collection record
    rw [found, counted] at same
    exact Except.ok.inj same
  · simpa [single] using seen
  · cases walked : parents record path with
    | ok ps => exact absurd (parents_ok_iff.mp ⟨ps, walked⟩) malformed
    | error x => exact ⟨x, followAll_error walked, fun leaf => leaf.eval_unreached engine walked⟩

/-- A pet that is none, behind one that is as asked for. -/
theorem clinic_household_malformed :
    ¬ HopsFit Clinic.weights.hops (Clinic.household [Clinic.weighedPet [3], .string "Max"]) := by
  intro fits
  have pets := fits [] Clinic.pets [] rfl _ (.here _) (.array [_, _]) rfl
  rcases pets with null | ⟨items, same, elements⟩
  · cases null
  · cases same
    rcases elements (.string "Max") (by simp) with null | ⟨fields, object⟩
    · cases null
    · cases object

/-- Two pets and a null are reached, with three weights. A name in the place of a pet is malformed,
and no weight in front of it hides that. -/
theorem structure_checked_of_clinic :
    (∃ vs, values (Clinic.household [Clinic.weighedPet [3, 4], .null, Clinic.weighedPet [5]])
      Clinic.weights = .ok vs ∧ [2, 1].sum = vs.length) ∧
    ¬ HopsFit Clinic.weights.hops (Clinic.household [Clinic.weighedPet [3], .string "Max"]) ∧
    ∃ x, IsInvalid Clinic.weights x ∧
      ((Leaf.contains (.double (.ofInt 3)) false).on Clinic.weights).eval .standard
        (Clinic.household [Clinic.weighedPet [3], .string "Max"]) = .error x := by
  have counted := structure_checked .standard Clinic.weights
    (Clinic.household [Clinic.weighedPet [3, 4], .null, Clinic.weighedPet [5]])
  have refused := structure_checked .standard Clinic.weights
    (Clinic.household [Clinic.weighedPet [3], .string "Max"])
  refine ⟨⟨_, rfl, (counted.1 rfl).2.2.2 _ _ rfl rfl⟩, clinic_household_malformed, ?_⟩
  obtain ⟨x, invalid, fails⟩ := refused.2.2.2 clinic_household_malformed
  exact ⟨x, invalid, (fails _).2 trivial⟩

end Predicate

end EntityFilter

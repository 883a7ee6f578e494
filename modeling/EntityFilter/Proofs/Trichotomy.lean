import EntityFilter.Proofs.Complements
import EntityFilter.Proofs.Completion
import EntityFilter.Proofs.Existence

namespace EntityFilter

open Fallible

namespace Relation

/-- The first holds where one of the other two does. -/
inductive Splits : Relation → Relation → Relation → Prop where
  | ge : Splits ge gt eq
  | le : Splits le lt eq
  | ne : Splits ne lt gt

/-- The truth of a relation between values that are in that order, if both are there. -/
def truth (r : Relation) : Option Ordering → Truth
  | none => .unknown
  | some o => .ofBool (r.holds o)

/-- At least is greater or equal, at most is less or equal, another is less or greater. -/
theorem Splits.truth_eq {r s u : Relation} (h : Splits r s u) (o : Option Ordering) :
    r.truth o = (s.truth o).or (u.truth o) := by
  cases h <;> rcases o with _ | _ | _ | _ <;> rfl

end Relation

namespace Truth

theorem or_or_eq {a b v w : Truth} (hv : a.or v = a) (hw : b.or w = b) :
    (a.or b).or (v.or w) = a.or b := by
  calc (a.or b).or (v.or w) = (a.or v).or (b.or w) := by
        rw [or_assoc, or_assoc, ← or_assoc b, or_comm b v, or_assoc v]
    _ = a.or b := by rw [hv, hw]

theorem or_eq_of_or_or {c v w : Truth} (h : c.or (v.or w) = c) : c.or v = c := by
  rw [← h, or_assoc, or_assoc, or_comm w v, left_or_or]

section

variable {ε α : Type} {test first second : α → Except ε Truth} {p q : α → Truth} {xs : List α}
  {a b c : Truth}

/-- Where each truth is parted in two, a part of the test finds no more than the whole. -/
theorem Found.part_le (whole : ∀ x ∈ xs, ∀ v, test x = .ok v → v = (p x).or (q x))
    (part : ∀ x ∈ xs, ∀ v, first x = .ok v → v = p x) (ha : Found first xs a)
    (hc : Found test xs c) : c.or a = c := by
  rcases ha.reached with rfl | ⟨x, mem, worth⟩
  · exact c.or_false
  · by_cases decided : c = .true
    · rw [decided]
      exact a.true_or
    · obtain ⟨v, worth'⟩ := hc.tested decided x mem
      have bound := hc.bound x mem v worth'
      rw [whole x mem v worth'] at bound
      rw [part x mem a worth]
      exact or_eq_of_or_or bound

/-- If each item is worth what its two parts come to, then so are all of them together. -/
theorem Found.split (whole : ∀ x ∈ xs, ∀ v, test x = .ok v → v = (p x).or (q x))
    (left : ∀ x ∈ xs, ∀ v, first x = .ok v → v = p x)
    (right : ∀ x ∈ xs, ∀ v, second x = .ok v → v = q x) (ha : Found first xs a)
    (hb : Found second xs b) (hc : Found test xs c) : c = a.or b := by
  have swapped : ∀ x ∈ xs, ∀ v, test x = .ok v → v = (q x).or (p x) := by
    intro x mem v worth
    rw [or_comm]
    exact whole x mem v worth
  have least : c.or (a.or b) = c := by
    rw [← or_assoc, ha.part_le whole left hc, hb.part_le swapped right hc]
  refine eq_of_or_eq least ?_
  rcases hc.reached with rfl | ⟨x, mem, worth⟩
  · exact (a.or b).or_false
  · by_cases decided : a = .true
    · rw [decided, true_or, true_or]
    · by_cases decided' : b = .true
      · rw [decided', or_true, true_or]
      · obtain ⟨v, hv⟩ := ha.tested decided x mem
        obtain ⟨w, hw⟩ := hb.tested decided' x mem
        rw [whole x mem c worth, ← left x mem v hv, ← right x mem w hw]
        exact or_or_eq (ha.bound x mem v hv) (hb.bound x mem w hw)

end

end Truth

namespace Record

variable {path : Path}

theorem FiniteAt.present {place : Option Json} (h : FiniteAt place) : FiniteAt (present place) := by
  intro v mem
  exact h v (Option.filter_eq_some_iff.mp mem).1

theorem FiniteAt.item {items : List Json} (h : FiniteAt (some (.array items))) :
    ∀ v ∈ items, FiniteAt (some v) := by
  intro v mem w hw
  cases hw
  cases h _ rfl with
  | array each => exact each v mem

theorem follow_finite {hop : Attribute} {parent : Option Json} (finite : FiniteAt parent)
    {next : List (Option Json)} (h : follow path hop parent = .ok next) :
    ∀ place ∈ next, FiniteAt place := by
  have field := finite.field hop.name
  cases collection : hop.isCollection with
  | false =>
    rw [follow_plain collection h]
    intro place mem
    rw [List.mem_singleton.mp mem]
    exact field.present
  | true =>
    simp only [follow, collection, if_true] at h
    generalize parent.bind (field? hop.name) = found at field h
    cases found with
    | none =>
      cases h
      simp
    | some v =>
      cases v with
      | array items =>
        intro place mem
        obtain ⟨item, hi, entity⟩ := mapM_ok_mem h place mem
        rw [asEntity_eq_ok entity]
        exact (field.item item hi).present
      | _ => cases h

theorem followAll_finite {hops : List Attribute} {frontier : List (Option Json)}
    (finite : ∀ place ∈ frontier, FiniteAt place) {places : List (Option Json)}
    (h : followAll path hops frontier = .ok places) : ∀ place ∈ places, FiniteAt place := by
  induction hops generalizing frontier with
  | nil =>
    cases h
    exact finite
  | cons hop hops ih =>
    obtain ⟨next, walked, h⟩ := bind_eq_ok.mp h
    refine ih (fun place mem => ?_) h
    obtain ⟨found, hf, mem⟩ := List.mem_flatten.mp mem
    obtain ⟨parent, hp, followed⟩ := mapM_ok_mem walked found hf
    exact follow_finite (finite parent hp) followed place mem

theorem targetValues_finite {parent : Option Json} (finite : FiniteAt parent)
    {vs : List (Option Json)} (h : targetValues path parent = .ok vs) : ∀ v ∈ vs, FiniteAt v := by
  have field := finite.field path.target.name
  simp only [targetValues] at h
  generalize parent.bind (field? path.target.name) = found at field h
  cases collection : path.isCollectionValued with
  | false =>
    rw [collection] at h
    cases h
    intro v mem
    rw [List.mem_singleton.mp mem]
    exact field
  | true =>
    rw [collection] at h
    cases found with
    | none =>
      cases h
      simp
    | some v =>
      cases v with
      | array items =>
        cases h
        intro v mem
        obtain ⟨item, hi, rfl⟩ := List.mem_map.mp mem
        exact field.item item hi
      | _ => cases h

theorem values_finite {record : Json} (finite : record.Finite) {vs : List (Option Json)}
    (h : values record path = .ok vs) : ∀ v ∈ vs, FiniteAt v := by
  obtain ⟨ps, reached, h⟩ := bind_eq_ok.mp h
  obtain ⟨found, walked, h⟩ := bind_eq_ok.mp h
  cases h
  intro v mem
  obtain ⟨vs, hvs, mem⟩ := List.mem_flatten.mp mem
  obtain ⟨parent, hp, read⟩ := mapM_ok_mem walked vs hvs
  have start : ∀ place ∈ [some record], FiniteAt place := by
    intro place mem w hw
    rw [List.mem_singleton.mp mem] at hw
    cases hw
    exact finite
  exact targetValues_finite (followAll_finite start reached parent hp) read v mem

/-- The value to which the names of the path lead from object to object, if no null is on the way.
-/
def sole? (path : Path) (record : Json) : Option Json :=
  path.segments.foldlM (fun v a => field? a.name v) record

/-- Without collections there is one place, and it is known which. -/
theorem followAll_sole {hops : List Attribute} (single : ∀ hop ∈ hops, hop.isCollection = false)
    {parent : Option Json} {places : List (Option Json)}
    (h : followAll path hops [parent] = .ok places) :
    places = [parent.bind fun record => hops.foldlM (fun v a => field? a.name v) record] := by
  induction hops generalizing parent with
  | nil =>
    cases h
    simp
  | cons hop hops ih =>
    obtain ⟨next, walked, h⟩ := bind_eq_ok.mp h
    obtain ⟨reached, followed, rfl⟩ := mapM_singleton_eq_ok.mp walked
    rw [follow_plain (single hop List.mem_cons_self) followed] at h
    have here : present (parent.bind (field? hop.name)) = parent.bind (field? hop.name) := by
      cases parent with
      | none => rfl
      | some record => simp [present, field?]
    rw [here] at h
    rw [ih (fun other mem => single other (List.mem_cons_of_mem _ mem)) h]
    cases parent <;> rfl

theorem values_sole (hops : path.hasCollectionHop = false)
    (single : path.isCollectionValued = false) {record : Json} {vs : List (Option Json)}
    (h : values record path = .ok vs) : vs = [sole? path record] := by
  obtain ⟨ps, reached, h⟩ := bind_eq_ok.mp h
  obtain ⟨found, walked, h⟩ := bind_eq_ok.mp h
  cases h
  have each : ∀ hop ∈ path.hops, hop.isCollection = false := by
    simpa [Path.hasCollectionHop] using hops
  rw [followAll_sole each reached] at walked
  obtain ⟨values, read, rfl⟩ := mapM_singleton_eq_ok.mp walked
  simp only [targetValues, single] at read
  cases read
  simp [sole?, Path.segments, List.foldlM_append]

end Record

namespace Predicate

open Record

variable {path : Path} {r s u : Relation} {literal : Value} {record : Json}

/-- How what is stored in a place is ordered to a literal, if there is a value that can be. -/
def standing (path : Path) (literal : Value) (place : Option Json) : Option Ordering := do
  let stored ← place
  let v ← valueOf? path.target.type stored
  (v.order? literal).join

/-- A comparison of numbers that have an order comes to what the relation says of it. -/
theorem compareValue_eq_ok {field : Value} (hl : literal.isNaN = false) (hf : field.isNaN = false)
    {b : Bool} (h : compareValue path r literal field = .ok b) :
    ∃ o, field.order? literal = some (some o) ∧ r.holds o = b := by
  rw [compareValue] at h
  cases compared : comparable? r field literal with
  | none => simp [compared] at h
  | some o =>
    have order := comparable?_eq_some compared
    obtain ⟨ordering, rfl⟩ := Value.order?_total hf hl order
    rw [compared] at h
    cases h
    exact ⟨ordering, order, rfl⟩

/-- A comparison of what is stored is worth what its order to the literal says. -/
theorem testStored_standing (ordered : literal.isNaN = false) {place : Option Json}
    (finite : FiniteAt place) {t : Truth}
    (h : testStored path (compareValue path r literal) place = .ok t) :
    t = r.truth (standing path literal place) ∧
      ∀ stored ∈ place, stored.isNull = false → ∃ o, standing path literal place = some o := by
  cases place with
  | none =>
    cases h
    exact ⟨rfl, nofun⟩
  | some stored =>
    simp only [testStored, read_eq] at h
    cases null : stored.isNull with
    | true =>
      simp only [null, if_true] at h
      cases h
      have nothing : standing path literal (some stored) = none := by
        cases stored <;> cases null
        cases type : path.target.type <;> simp [standing, type, valueOf?, decimalOf?]
      rw [nothing]
      refine ⟨rfl, fun other mem notNull => ?_⟩
      cases mem
      rw [null] at notNull
      cases notNull
    | false =>
      cases read : valueOf? path.target.type stored with
      | none => simp [null, read] at h
      | some v =>
        simp only [null, read, Bool.false_eq_true, if_false] at h
        obtain ⟨b, compared, rfl⟩ := map_eq_ok.mp h
        have number := Value.isNaN_valueOf? (finite stored rfl) read
        obtain ⟨o, order, rfl⟩ := compareValue_eq_ok ordered number compared
        have stands : standing path literal (some stored) = some o := by
          simp [standing, read, order]
        rw [stands]
        exact ⟨rfl, fun _ _ _ => ⟨o, rfl⟩⟩

/-- What holds of one value holds of all that a path reaches, through any collections, since an
existential test can be parted. -/
theorem evalCompare_split (splits : r.Splits s u) (ordered : literal.isNaN = false)
    (finite : record.Finite) {t a b : Truth} (whole : evalCompare record path r literal = .ok t)
    (left : evalCompare record path s literal = .ok a)
    (right : evalCompare record path u literal = .ok b) : t = a.or b := by
  obtain ⟨vs, reached, whole⟩ := bind_eq_ok.mp whole
  obtain ⟨vs', reached', left⟩ := bind_eq_ok.mp left
  obtain ⟨vs'', reached'', right⟩ := bind_eq_ok.mp right
  cases reached.symm.trans reached'
  cases reached.symm.trans reached''
  have worth (r : Relation) : ∀ v ∈ vs, ∀ t, testStored path (compareValue path r literal) v = .ok t →
      t = r.truth (standing path literal v) := by
    intro v mem t tested
    exact (testStored_standing ordered (values_finite finite reached v mem) tested).1
  refine Truth.Found.split ?_ (worth s) (worth u) (Truth.found_of_any left)
    (Truth.found_of_any right) (Truth.found_of_any whole)
  intro v mem t tested
  rw [worth r v mem t tested]
  exact splits.truth_eq _

/-- Sizes have an order, so a size splits as well. -/
theorem evalSize_split (splits : r.Splits s u) {t a b : Truth}
    (whole : evalSize record path r literal = .ok t) (left : evalSize record path s literal = .ok a)
    (right : evalSize record path u literal = .ok b) : t = a.or b := by
  cases literal with
  | integer n =>
    obtain ⟨ns, counted, whole⟩ := bind_eq_ok.mp whole
    obtain ⟨ns', counted', left⟩ := bind_eq_ok.mp left
    obtain ⟨ns'', counted'', right⟩ := bind_eq_ok.mp right
    cases counted.symm.trans counted'
    cases counted.symm.trans counted''
    have worth (r : Relation) : ∀ count ∈ ns, ∀ t : Truth,
        Except.ok (ε := ExecutionError) (.ofBool (r.holds (Ord.compare (count : Int) n))) = .ok t →
          t = r.truth (some (Ord.compare (count : Int) n)) := by
      intro count _ t tested
      exact (Except.ok.inj tested).symm
    refine Truth.Found.split ?_ (worth s) (worth u) (Truth.found_of_any left)
      (Truth.found_of_any right) (Truth.found_of_any whole)
    intro count mem t tested
    rw [worth r count mem t tested]
    exact splits.truth_eq _
  | _ => cases whole

/-- A single value that is not null stands in some order to the literal. -/
theorem evalCompare_sole (hops : path.hasCollectionHop = false)
    (single : path.isCollectionValued = false) (ordered : literal.isNaN = false)
    (finite : record.Finite) {stored : Json} (there : sole? path record = some stored) {t : Truth}
    (h : evalCompare record path r literal = .ok t) :
    ∃ o, standing path literal (some stored) = some o ∧ t = r.truth (some o) := by
  obtain ⟨vs, reached, h⟩ := bind_eq_ok.mp h
  have finite' := values_finite finite reached
  rw [values_sole hops single reached, there] at h finite'
  rw [any_singleton] at h
  obtain ⟨worth, stands⟩ := testStored_standing ordered (finite' _ (List.mem_singleton_self _)) h
  have notNull : stored.isNull = false := by
    simp only [sole?, Path.segments, List.foldlM_append] at there
    obtain ⟨parent, _, there⟩ := Option.bind_eq_some_iff.mp there
    obtain ⟨v, field, there⟩ := Option.bind_eq_some_iff.mp there
    cases there
    simpa using (Option.filter_eq_some_iff.mp field).2
  obtain ⟨o, stands⟩ := stands stored rfl notNull
  rw [stands] at worth
  exact ⟨o, stands, worth⟩

/-- Whatever a path reaches, at least is greater or equal, at most is less or equal, and another is
less or greater, of values as of sizes. A single value that is there is in one of the orders only.
-/
theorem eval_ranges_consistent {engine : RegexEngine} {path : Path} {v : Value}
    (ordered : v.isNaN = false) {record : Json} (finite : record.Finite) :
    (∀ r s u : Relation, r.Splits s u → ∀ t a b,
      (compare path r v).eval engine record = .ok t →
      (compare path s v).eval engine record = .ok a →
      (compare path u v).eval engine record = .ok b → t = a.or b) ∧
    (∀ r s u : Relation, r.Splits s u → ∀ t a b,
      (size path r v).eval engine record = .ok t →
      (size path s v).eval engine record = .ok a →
      (size path u v).eval engine record = .ok b → t = a.or b) ∧
    (path.hasCollectionHop = false → path.isCollectionValued = false →
      (sole? path record).isSome = true → ∀ a b c,
      (compare path .lt v).eval engine record = .ok a →
      (compare path .eq v).eval engine record = .ok b →
      (compare path .gt v).eval engine record = .ok c →
      (a, b, c) = (.true, .false, .false) ∨ (a, b, c) = (.false, .true, .false) ∨
        (a, b, c) = (.false, .false, .true)) := by
  refine ⟨fun r s u splits t a b => evalCompare_split splits ordered finite,
    fun r s u splits t a b => evalSize_split splits, ?_⟩
  intro hops single there a b c less equal greater
  obtain ⟨stored, there⟩ := Option.isSome_iff_exists.mp there
  obtain ⟨o, stands, rfl⟩ := evalCompare_sole hops single ordered finite there less
  obtain ⟨o', stands', rfl⟩ := evalCompare_sole hops single ordered finite there equal
  obtain ⟨o'', stands'', rfl⟩ := evalCompare_sole hops single ordered finite there greater
  cases stands.symm.trans stands'
  cases stands.symm.trans stands''
  cases o with
  | lt => exact .inl rfl
  | eq => exact .inr (.inl rfl)
  | gt => exact .inr (.inr rfl)

theorem clinic_knownOwner_finite : Clinic.knownOwner.Finite := by
  have aged : ∀ n, (Json.object [("age", .number (.integer n))]).Finite := by
    intro n
    refine .object fun f hf => ?_
    rw [List.mem_singleton.mp hf]
    exact .integer n
  refine .object fun f hf => ?_
  simp only [List.mem_cons, List.not_mem_nil, or_false] at hf
  rcases hf with rfl | rfl
  · exact .string "Ghent"
  · refine .array fun v hv => ?_
    simp only [List.mem_cons, List.not_mem_nil, or_false] at hv
    rcases hv with rfl | rfl <;> exact aged _

/-- Of two pets one is younger and one is older than that, so one is of another age; the name of a
kitten stands before another and is neither that nor behind it. -/
theorem eval_ranges_consistent_of_clinic :
    (Value.integer 2).isNaN = false ∧ Clinic.knownOwner.Finite ∧ Clinic.kitten.Finite ∧
      (∃ t, (compare Clinic.age .ne (.integer 2)).eval .standard Clinic.knownOwner = .ok t ∧
        t = Truth.or .true .true) ∧
      ∃ a b c, (compare Clinic.name .lt (.string "Rex")).eval .standard Clinic.kitten = .ok a ∧
        (compare Clinic.name .eq (.string "Rex")).eval .standard Clinic.kitten = .ok b ∧
        (compare Clinic.name .gt (.string "Rex")).eval .standard Clinic.kitten = .ok c ∧
        ((a, b, c) = (.true, .false, .false) ∨ (a, b, c) = (.false, .true, .false) ∨
          (a, b, c) = (.false, .false, .true)) := by
  have apart := (@eval_ranges_consistent .standard Clinic.age (.integer 2) rfl _ clinic_knownOwner_finite).1
  have alone := (@eval_ranges_consistent .standard Clinic.name (.string "Rex") rfl _ clinic_kitten_finite).2.2
  have other : (compare Clinic.age .ne (.integer 2)).eval .standard Clinic.knownOwner = .ok .true := by
    decide +kernel
  have younger : (compare Clinic.age .lt (.integer 2)).eval .standard Clinic.knownOwner = .ok .true := by
    decide +kernel
  have older : (compare Clinic.age .gt (.integer 2)).eval .standard Clinic.knownOwner = .ok .true := by
    decide +kernel
  refine ⟨rfl, clinic_knownOwner_finite, clinic_kitten_finite,
    ⟨.true, other, apart .ne .lt .gt .ne _ _ _ other younger older⟩, ?_⟩
  have before : (compare Clinic.name .lt (.string "Rex")).eval .standard Clinic.kitten = .ok .true := by
    decide +kernel
  have same : (compare Clinic.name .eq (.string "Rex")).eval .standard Clinic.kitten = .ok .false := by
    decide +kernel
  have behind : (compare Clinic.name .gt (.string "Rex")).eval .standard Clinic.kitten = .ok .false := by
    decide +kernel
  exact ⟨_, _, _, before, same, behind, alone rfl rfl rfl _ _ _ before same behind⟩

end Predicate

end EntityFilter

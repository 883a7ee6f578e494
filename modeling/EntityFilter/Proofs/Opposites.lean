import EntityFilter.Proofs.Conformity
import EntityFilter.Proofs.Leaves

namespace EntityFilter

namespace Relation

/-- The relation that holds where this one does not. -/
def complement : Relation → Relation
  | eq => ne
  | ne => eq
  | gt => le
  | le => gt
  | lt => ge
  | ge => lt

theorem complement_complement (r : Relation) : r.complement.complement = r := by cases r <;> rfl

theorem isOrdering_complement (r : Relation) : r.complement.isOrdering = r.isOrdering := by
  cases r <;> rfl

/-- Of two values that have an order either a relation or its complement holds. -/
theorem holds_complement (r : Relation) (o : Ordering) : r.complement.holds o = !r.holds o := by
  cases r <;> cases o <;> rfl

end Relation

theorem Truth.ofBool_not (b : Bool) : ofBool (!b) = (ofBool b).not := by cases b <;> rfl

/-- Every number in it is finite. -/
inductive Json.Finite : Json → Prop where
  | null : Finite .null
  | bool (b : Bool) : Finite (.bool b)
  | integer (n : Int) : Finite (.number (.integer n))
  | double {x : Double} (finite : x.isFinite = true) : Finite (.number (.double x))
  | string (s : String) : Finite (.string s)
  | array {items : List Json} (each : ∀ v ∈ items, Finite v) : Finite (.array items)
  | object {fields : List (String × Json)} (each : ∀ f ∈ fields, Finite f.2) :
    Finite (.object fields)

namespace Double

theorem isNaN_of_isFinite {x : Double} (h : x.isFinite = true) : x.isNaN = false := by
  simp only [isFinite, isNaN, decide_eq_true_eq, decide_eq_false_iff_not] at *
  omega

theorem isNaN_ofInt (n : Int) : (ofInt n).isNaN = false := by
  have bounded : nearest n.natAbs 1 ≤ infinity := by
    rw [nearest]
    split
    · exact Nat.zero_le _
    · exact Nat.min_le_left ..
  exact decide_eq_false (Nat.not_lt.mpr bounded)

end Double

namespace Value

/-- Whether it is what counts as a number and is none. -/
def isNaN : Value → Bool
  | double x => x.isNaN
  | _ => false

theorem isNaN_of_isOf {t : AttributeType} {v : Value} (other : t ≠ .double) (h : isOf t v = true) :
    v.isNaN = false := by
  cases v with
  | double x =>
    cases t with
    | double => exact absurd rfl other
    | _ => cases h
  | _ => rfl

theorem ofLiteral_of_double {l : Literal} {t : AttributeType} (type : l.typeAt t = .double) :
    ofLiteral l t = ofDouble l := by
  cases t with
  | integer | long | double | decimal =>
    simp only [ofLiteral, ofNumber]
    cases suffix : l.suffix with
    | none => simp_all [Literal.typeAt, AttributeType.isNumeric]
    | some s => cases s <;> simp_all [Literal.typeAt, AttributeType.isNumeric, Suffix.type]
  | _ => simp [Literal.typeAt, AttributeType.isNumeric] at type

/-- No literal is read as what is not a number. -/
theorem isNaN_ofLiteral {l : Literal} {t : AttributeType} {v : Value} (h : ofLiteral l t = .ok v) :
    v.isNaN = false := by
  by_cases type : l.typeAt t = .double
  · rw [ofLiteral_of_double type] at h
    obtain ⟨x, read, rfl⟩ := Option.map_eq_some_iff.mp (orRefuse_eq_ok.mp h)
    exact Double.isNaN_of_isFinite (Option.filter_eq_some_iff.mp read).2
  · exact isNaN_of_isOf type (isOf_ofLiteral h)

theorem isNaN_valueOf? {t : AttributeType} {stored : Json} {v : Value} (finite : stored.Finite)
    (h : Record.valueOf? t stored = some v) : v.isNaN = false := by
  by_cases type : t = .double
  · subst type
    cases finite with
    | integer n =>
      cases h
      exact Double.isNaN_ofInt n
    | double finite =>
      cases h
      exact Double.isNaN_of_isFinite finite
    | _ => cases h
  · exact isNaN_of_isOf type (isOf_valueOf? h)

/-- Values that are numbers and can be compared have an order. -/
theorem order?_total {v w : Value} (hv : v.isNaN = false) (hw : w.isNaN = false)
    {o : Option Ordering} (h : v.order? w = some o) : ∃ ordering, o = some ordering := by
  cases v <;> cases w <;> cases h
  case double.double.refl x y =>
    simp only [isNaN] at hv hw
    exact ⟨compare x.key y.key, by simp [Double.compare?, hv, hw]⟩
  all_goals exact ⟨_, rfl⟩

end Value

namespace Record

open Fallible

variable {path : Path}

/-- An object or nothing, as long as its numbers are finite. -/
def FiniteAt (place : Option Json) : Prop := ∀ v ∈ place, v.Finite

theorem FiniteAt.field {place : Option Json} (h : FiniteAt place) (name : String) :
    FiniteAt (place.bind (field? name)) := by
  intro v hv
  obtain ⟨record, hr, hv⟩ := Option.bind_eq_some_iff.mp hv
  have found := (Option.filter_eq_some_iff.mp hv).1
  cases h record hr with
  | object each =>
    obtain ⟨f, hf, rfl⟩ := Option.map_eq_some_iff.mp found
    exact each f (List.mem_of_find?_eq_some hf)
  | _ => cases found

theorem follow_single {hop : Attribute} (single : hop.isCollection = false) {parent : Option Json}
    (finite : FiniteAt parent) {next : List (Option Json)} (h : follow path hop parent = .ok next) :
    ∃ place, next = [place] ∧ FiniteAt place := by
  have field := finite.field hop.name
  simp only [follow, single] at h
  cases found : parent.bind (field? hop.name) with
  | none =>
    rw [found] at h
    cases h
    exact ⟨none, rfl, nofun⟩
  | some v =>
    rw [found] at h field
    cases v with
    | null =>
      cases h
      exact ⟨none, rfl, nofun⟩
    | object fields =>
      cases h
      exact ⟨_, rfl, field⟩
    | _ => cases h

/-- Without collections a path leads to one place. -/
theorem followAll_single {hops : List Attribute} (single : ∀ hop ∈ hops, hop.isCollection = false)
    {parent : Option Json} (finite : FiniteAt parent) {places : List (Option Json)}
    (h : followAll path hops [parent] = .ok places) :
    ∃ place, places = [place] ∧ FiniteAt place := by
  induction hops generalizing parent with
  | nil =>
    cases h
    exact ⟨parent, rfl, finite⟩
  | cons hop hops ih =>
    obtain ⟨next, walked, h⟩ := bind_eq_ok.mp h
    obtain ⟨reached, followed, rfl⟩ := mapM_singleton_eq_ok.mp walked
    obtain ⟨place, rfl, finite⟩ := follow_single (single hop List.mem_cons_self) finite followed
    exact ih (fun other mem => single other (List.mem_cons_of_mem _ mem)) finite h

/-- A path without collections reaches one value or nothing. -/
theorem values_single (hops : path.hasCollectionHop = false)
    (single : path.isCollectionValued = false) {record : Json} (finite : record.Finite)
    {vs : List (Option Json)} (h : values record path = .ok vs) :
    ∃ place, vs = [place] ∧ FiniteAt place := by
  obtain ⟨ps, reached, h⟩ := bind_eq_ok.mp h
  obtain ⟨found, walked, h⟩ := bind_eq_ok.mp h
  cases h
  have each : ∀ hop ∈ path.hops, hop.isCollection = false := by
    simpa [Path.hasCollectionHop] using hops
  have start : FiniteAt (some record) := by
    intro v hv
    cases hv
    exact finite
  obtain ⟨parent, rfl, finite⟩ := followAll_single each start reached
  obtain ⟨values, read, rfl⟩ := mapM_singleton_eq_ok.mp walked
  simp only [targetValues, single] at read
  cases read
  exact ⟨_, rfl, finite.field path.target.name⟩

end Record

namespace Predicate

open Fallible Record

/-- What a leaf turns into when its comparison is complemented. -/
def opposite : Predicate → Predicate
  | compare path r v => compare path r.complement v
  | like path pattern negated => like path pattern !negated
  | contains path v negated => contains path v !negated
  | size path r v => size path r.complement v
  | other => not other

theorem patternFor?_complement (policy : Policy) (path : Path) (r : Relation) (l : Literal) :
    patternFor? policy path r.complement l = patternFor? policy path r l := by
  simp only [patternFor?, r.isOrdering_complement]

/-- The opposite of a leaf is a leaf of the complement. -/
theorem LeafOf.opposite {policy : Policy} {path : Path} {r : Relation} {l : Literal}
    {leaf : Predicate} (h : LeafOf policy path r l leaf) :
    LeafOf policy path r.complement l leaf.opposite := by
  have negated (equality : r.isOrdering = false) : (!(r == .ne)) = (r.complement == .ne) := by
    cases r <;> cases equality <;> rfl
  have pattern := patternFor?_complement policy path r l
  have ordering := r.isOrdering_complement
  cases h with
  | like text equality asked =>
    rw [Predicate.opposite, negated equality]
    exact .like text (ordering.trans equality) asked
  | compare single plain ordered exact read =>
    exact .compare single plain (fun h => ordered (ordering ▸ h)) (pattern.trans exact) read
  | contains collection plain equality exact read =>
    rw [Predicate.opposite, negated equality]
    exact .contains collection plain (ordering.trans equality) (pattern.trans exact) read
  | size collection ordered read => exact .size collection (ordering.trans ordered) read

theorem comparable?_eq_some {r : Relation} {field literal : Value} {o : Option Ordering}
    (h : comparable? r field literal = some o) : field.order? literal = some o := by
  unfold comparable? at h
  split at h
  · split at h
    · cases h
    · exact h
  · exact h

/-- Values that are ordered are in a relation or in its complement, or are not compared in either.
-/
theorem compareValue_complement (path : Path) (r : Relation) {literal field : Value}
    (hl : literal.isNaN = false) (hf : field.isNaN = false) :
    compareValue path r.complement literal field =
      (compareValue path r literal field).map (!·) := by
  have compared : comparable? r.complement field literal = comparable? r field literal := by
    simp only [comparable?, r.isOrdering_complement]
  rw [compareValue, compareValue, compared]
  cases h : comparable? r field literal with
  | none => rfl
  | some o =>
    obtain ⟨ordering, rfl⟩ := Value.order?_total hf hl (comparable?_eq_some h)
    exact congrArg Except.ok (r.holds_complement ordering)

/-- Opposite tests of a value come to opposite truths. What is missing is unknown to both. -/
theorem testStored_not {path : Path} {test test' : Value → Except ExecutionError Bool}
    {place : Option Json} (h : ∀ stored ∈ place, ∀ v, valueOf? path.target.type stored = some v →
      test' v = (test v).map (!·)) :
    testStored path test' place = (testStored path test place).map Truth.not := by
  cases place with
  | none => rfl
  | some stored =>
    simp only [testStored, read_eq]
    cases stored.isNull with
    | true => rfl
    | false =>
      cases read : valueOf? path.target.type stored with
      | none => rfl
      | some v =>
        simp only [Bool.false_eq_true, if_false, h stored rfl v read]
        cases test v with
        | error x => rfl
        | ok b => exact congrArg Except.ok (Truth.ofBool_not b)

/-- Where values are compared one by one, a path has to reach a single one for a leaf and its
opposite to be worth opposite truths: of many some may be in the relation and some in its
complement. -/
theorem evalCompare_complement {path : Path} (hops : path.hasCollectionHop = false)
    (single : path.isCollectionValued = false) (r : Relation) {literal : Value}
    (ordered : literal.isNaN = false) {record : Json} (finite : record.Finite) :
    evalCompare record path r.complement literal =
      (evalCompare record path r literal).map Truth.not := by
  simp only [evalCompare, someValue]
  cases reached : values record path with
  | error x => rfl
  | ok vs =>
    obtain ⟨place, rfl, finite⟩ := values_single hops single finite reached
    have test : testStored path (compareValue path r.complement literal) place =
        (testStored path (compareValue path r literal) place).map Truth.not := by
      refine testStored_not fun stored mem v read => ?_
      exact compareValue_complement path r ordered (Value.isNaN_valueOf? (finite stored mem) read)
    simp only [bind, Except.bind, any_singleton]
    exact test

theorem map_negateIf_not (negated : Bool) (o : Outcome) :
    o.map (negateIf !negated) = (o.map (negateIf negated)).map Truth.not := by
  cases o with
  | error x => rfl
  | ok t => cases negated <;> cases t <;> rfl

/-- Opposite leaves are worth opposite truths, or fail alike. -/
theorem LeafOf.eval_opposite {engine : RegexEngine} {policy : Policy} {path : Path} {r : Relation}
    {l : Literal} {leaf : Predicate} (h : LeafOf policy path r l leaf)
    (hops : path.hasCollectionHop = false)
    (ordered : r.isOrdering = true → path.isCollectionValued = false) {record : Json}
    (finite : record.Finite) :
    leaf.opposite.eval engine record = (leaf.eval engine record).map Truth.not := by
  cases h with
  | @like pattern =>
    simp only [Predicate.opposite, eval]
    cases pattern.compile engine with
    | error x => rfl
    | ok items => exact map_negateIf_not _ _
  | compare single _ _ _ read =>
    exact evalCompare_complement hops single r (Value.isNaN_ofLiteral read) finite
  | contains => exact map_negateIf_not _ _
  | size collection ordering =>
    rw [ordered ordering] at collection
    cases collection

end Predicate

end EntityFilter

import EntityFilter.Proofs.Joins

namespace EntityFilter

open Fallible

namespace Record

/-- The hops lead through objects to one that has nothing, or a null, for the next of them. -/
inductive LostAlong : List Attribute → Json → Prop where
  | here {hop : Attribute} {hops : List Attribute} {fields : List (String × Json)}
    (missing : ∀ v, (Json.object fields).get? hop.name = some v → v = .null) :
    LostAlong (hop :: hops) (.object fields)
  | behind {hop : Attribute} {hops : List Attribute} {fields next : List (String × Json)}
    (field : (Json.object fields).get? hop.name = some (.object next))
    (lost : LostAlong hops (.object next)) : LostAlong (hop :: hops) (.object fields)

variable {path : Path} {hop : Attribute} {hops : List Attribute}

theorem field?_eq_none {name : String} {record : Json}
    (missing : ∀ v, record.get? name = some v → v = .null) : field? name record = none := by
  refine Option.filter_eq_none_iff.mpr ?_
  intro v found
  rw [missing v found]
  exact Bool.false_ne_true

theorem followAll_cons_of_follow {place : Option Json} {next : List (Option Json)}
    (h : follow path hop place = .ok next) :
    followAll path (hop :: hops) [place] = followAll path hops next := by
  rw [followAll, mapM_singleton_eq_ok.mpr ⟨next, h, rfl⟩]
  simp [bind, Except.bind]

/-- A hop to one object that is missing leads to nothing, which is kept as a place. -/
theorem follow_missing (single : hop.isCollection = false) {place : Option Json}
    (missing : place.bind (field? hop.name) = none) : follow path hop place = .ok [none] := by
  simp [follow, missing, single]

/-- What is lost stays so, and has no elements. -/
theorem followAll_none (path : Path) (hops : List Attribute) :
    followAll path hops [none] = .ok (if hops.any (·.isCollection) then [] else [none]) := by
  induction hops with
  | nil => rfl
  | cons hop hops ih =>
    cases collection : hop.isCollection with
    | true =>
      have next : follow path hop none = .ok [] := by simp [follow, collection]
      rw [followAll_cons_of_follow next, followAll_nil]
      simp [collection]
    | false =>
      rw [followAll_cons_of_follow (follow_missing collection rfl), ih]
      simp [collection]

/-- A path that is lost leads to one place, with nothing in it. -/
theorem followAll_lost {record : Json} (single : ∀ hop ∈ hops, hop.isCollection = false)
    (lost : LostAlong hops record) : followAll path hops [some record] = .ok [none] := by
  induction lost with
  | @here hop hops fields missing =>
    have next : follow path hop (some (.object fields)) = .ok [none] :=
      follow_missing (single hop List.mem_cons_self) (field?_eq_none missing)
    have plain : hops.any (·.isCollection) = false := by
      simpa using fun other mem => single other (List.mem_cons_of_mem _ mem)
    rw [followAll_cons_of_follow next, followAll_none, plain]
    rfl
  | @behind hop hops fields next field _ ih =>
    have there : (some (Json.object fields)).bind (field? hop.name) = some (.object next) := by
      simp [field?, field, Json.isNull]
    have onward : follow path hop (some (.object fields)) = .ok [some (.object next)] := by
      simp [follow, there, single hop List.mem_cons_self, asEntity, Except.map]
    rw [followAll_cons_of_follow onward]
    exact ih fun other mem => single other (List.mem_cons_of_mem _ mem)

end Record

namespace Predicate

open Record

section

variable {path : Path} {record : Json} (lost : followAll path path.hops [some record] = .ok [none])

include lost

/-- A single value that the path would lead to is missed. A collection is not: nothing is found in
it. -/
theorem someValue_lost (test : Value → Except ExecutionError Bool) :
    someValue record path test = .ok (if path.isCollectionValued then .false else .unknown) := by
  rw [someValue_eq, anyReached, lost]
  cases collection : path.isCollectionValued <;>
    simp [targetValues, collection, pure, Except.pure, bind, Except.bind, Truth.any, Truth.anyFrom,
      testStored, Truth.or]

/-- Behind a path that is lost nothing is counted at all, not even a size of zero. -/
theorem evalSize_lost (r : Relation) (n : Int) :
    evalSize record path r (.integer n) = .ok .false := by
  rw [evalSize_eq, anyReached, lost]
  rfl

end

theorem negateIf_unknown (negated : Bool) : negateIf negated .unknown = .unknown := by
  cases negated <;> rfl

namespace Leaf

/-- What a leaf is worth where its path is lost. -/
def lost (path : Path) : Leaf → Truth
  | size _ _ => .false
  | leaf => if path.isCollectionValued then negateIf leaf.negated .false else .unknown

/-- Where a hop is null or missing a leaf over a single value is unknown, and so is its negation.
Over a collection it is false, and true if it is negated; and so is a size, whichever it is compared
with. Only a pattern that is refused keeps the leaf from that. -/
theorem eval_lost {engine : RegexEngine} {leaf : Leaf} {path : Path} {record : Json}
    (hops : path.hasCollectionHop = false) (integral : leaf.IsIntegral)
    (missed : LostAlong path.hops record) :
    (leaf.on path).eval engine record = (leaf.ready engine).map (fun _ => leaf.lost path) ∧
      (leaf.lost path = .unknown →
        (leaf.on path).selects engine record = (leaf.ready engine).map (fun _ => false) ∧
        (not (leaf.on path)).selects engine record = (leaf.ready engine).map (fun _ => false)) := by
  have single : ∀ hop ∈ path.hops, hop.isCollection = false := by
    simpa [Path.hasCollectionHop] using hops
  have nothing : followAll path path.hops [some record] = .ok [none] := followAll_lost single missed
  have worth : (leaf.found record path).map (negateIf leaf.negated) = .ok (leaf.lost path) := by
    cases leaf with
    | size r v =>
      obtain ⟨n, rfl⟩ := integral
      rw [found, evalSize_lost nothing]
      rfl
    | compare | like | contains =>
      simp only [found, someValue_lost nothing, Leaf.lost]
      cases path.isCollectionValued with
      | true => rfl
      | false => exact congrArg Except.ok (negateIf_unknown _)
  have whole : (leaf.on path).eval engine record =
      (leaf.ready engine).map fun _ => leaf.lost path := by
    rw [eval_on, worth]
    cases leaf.ready engine <;> rfl
  refine ⟨whole, fun unknown => ?_⟩
  rw [unknown] at whole
  simp only [selects, eval, whole]
  cases leaf.ready engine <;> exact ⟨rfl, rfl⟩

theorem clinic_stray_lost : LostAlong [Clinic.keptBy] Clinic.stray := by
  refine .here fun v found => ?_
  cases found
  rfl

/-- Of a stray it is not known that its town has another name. -/
theorem eval_lost_of_clinic :
    LostAlong [Clinic.keptBy] Clinic.stray ∧
      ((like ⟨"G%"⟩ true).on ⟨[Clinic.keptBy], ⟨"city", .string, .single⟩⟩).eval .standard
        Clinic.stray = .ok .unknown := by
  have ready : (like ⟨"G%"⟩ true).ready .standard = .ok () := by decide +kernel
  have worth := (@eval_lost .standard (like ⟨"G%"⟩ true)
    ⟨[Clinic.keptBy], ⟨"city", .string, .single⟩⟩ _ rfl trivial clinic_stray_lost).1
  rw [ready] at worth
  exact ⟨clinic_stray_lost, worth⟩

/-- A stray is held to have an owner without that phone. -/
theorem lost_not_unknown :
    ¬ ∀ (leaf : Leaf) (path : Path) (record : Json), path.hasCollectionHop = false →
      leaf.IsIntegral → LostAlong path.hops record →
      (leaf.on path).eval .standard record = .ok .unknown := by
  intro unknown
  have worth := unknown (contains (.string "06") true)
    ⟨[Clinic.keptBy], ⟨"phones", .string, .collection⟩⟩ Clinic.stray rfl trivial clinic_stray_lost
  revert worth
  decide +kernel

end Leaf

end Predicate

end EntityFilter

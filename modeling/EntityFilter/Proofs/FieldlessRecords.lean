import EntityFilter.Proofs.Leaves
import EntityFilter.Proofs.LostPaths

namespace EntityFilter

open Fallible

/-- Somewhere on the path there is a collection, its target included. -/
def Path.hasCollection (path : Path) : Bool := path.hasCollectionHop || path.isCollectionValued

namespace Record

def Fieldless (record : Json) : Prop := ∀ name, record.get? name = none

theorem fieldless_of_no_object {record : Json} (scalar : ∀ fields, record ≠ .object fields) :
    Fieldless record := by
  intro name
  cases record with
  | object fields => exact absurd rfl (scalar fields)
  | _ => rfl

theorem fieldless_empty : Fieldless (.object []) := fun _ => rfl

namespace Fieldless

variable {record : Json} (fieldless : Fieldless record)

include fieldless

theorem field?_eq (name : String) : field? name record = none := by
  rw [field?, fieldless name]
  rfl

/-- Behind the first hop there is nothing. -/
theorem followAll_eq (path : Path) (hops : List Attribute) :
    followAll path hops [some record] =
      .ok (if hops.any (·.isCollection) then []
        else if hops.isEmpty then [some record] else [none]) := by
  cases hops with
  | nil => rfl
  | cons hop hops =>
    have same : follow path hop (some record) = follow path hop none := by
      simp [follow, fieldless.field?_eq]
    have alike :
        followAll path (hop :: hops) [some record] = followAll path (hop :: hops) [none] := by
      simp only [followAll, List.mapM_cons, List.mapM_nil, same]
    rw [alike, followAll_none]
    rfl

theorem targetCount_eq (path : Path) : targetCount path record = .ok 0 := by
  simp [targetCount, fieldless.field?_eq]

end Fieldless

end Record

namespace Predicate

open Record

/-- A value is looked for in nothing, if it is not looked for among no elements. -/
theorem someValue_fieldless {record : Json} (fieldless : Fieldless record) (path : Path)
    (test : Value → Except ExecutionError Bool) :
    someValue record path test = .ok (if path.hasCollection then .false else .unknown) := by
  rw [someValue_eq, anyReached, fieldless.followAll_eq, Path.hasCollection, Path.hasCollectionHop]
  cases path.hops.any (·.isCollection) with
  | true => rfl
  | false =>
    cases collection : path.isCollectionValued <;> cases path.hops.isEmpty <;>
      simp [targetValues, fieldless.field?_eq, collection, pure, Except.pure, bind, Except.bind,
        Truth.any, Truth.anyFrom, testStored, Truth.or]

/-- Where a collection is crossed nothing is counted, which is definite. The record itself counts as
having none. -/
theorem evalSize_fieldless {record : Json} (fieldless : Fieldless record) (path : Path)
    (r : Relation) (n : Int) : evalSize record path r (.integer n) =
      .ok (.ofBool (path.hops.isEmpty && r.holds (Ord.compare 0 n))) := by
  rw [evalSize_eq, anyReached, fieldless.followAll_eq]
  cases hops : path.hops with
  | nil =>
    simp [sizes, fieldless.targetCount_eq, Except.map, pure, Except.pure, bind, Except.bind,
      any_singleton]
  | cons hop more => cases (hop :: more).any (·.isCollection) <;> rfl

namespace Leaf

/-- What a leaf is worth where there is nothing. A size is that of an empty collection, if the
record itself would have the collection. -/
def bare (path : Path) : Leaf → Truth
  | size r (.integer n) => .ofBool (path.hops.isEmpty && r.holds (Ord.compare 0 n))
  | size _ _ => .false
  | leaf => negateIf leaf.negated (if path.hasCollection then .false else .unknown)

theorem bare_of_eval {engine : RegexEngine} {record : Json} (fieldless : Fieldless record)
    {path : Path} {leaf : Leaf} {t : Truth} (h : (leaf.on path).eval engine record = .ok t) :
    t = leaf.bare path := by
  rw [eval_on] at h
  obtain ⟨_, _, h⟩ := bind_eq_ok.mp h
  cases leaf with
  | size r v =>
    cases v with
    | integer n =>
      rw [found, evalSize_fieldless fieldless] at h
      exact (Except.ok.inj h).symm
    | _ => cases h
  | compare | like | contains =>
    rw [found, someValue_fieldless fieldless] at h
    exact (Except.ok.inj h).symm

end Leaf

/-- What a predicate is worth where there is nothing. -/
def bare : Predicate → Truth
  | and p q => p.bare.and q.bare
  | or p q => p.bare.or q.bare
  | not p => p.bare.not
  | compare path r v => (Leaf.compare r v).bare path
  | like path pattern negated => (Leaf.like pattern negated).bare path
  | contains path v negated => (Leaf.contains v negated).bare path
  | size path r v => (Leaf.size r v).bare path

/-- All sizes are compared with integers. -/
def CountsIntegers (p : Predicate) : Prop :=
  ∀ path r v, size path r v ∈ p.leaves → ∃ n, v = .integer n

section

variable {engine : RegexEngine} {record : Json} {p : Predicate}

theorem bare_of_eval (fieldless : Fieldless record) {t : Truth}
    (h : p.eval engine record = .ok t) : t = p.bare := by
  induction p generalizing t with
  | and p q ihp ihq | or p q ihp ihq =>
    exact truth_of_connected (fun _ => rfl) (fun _ => ihp) (fun _ => ihq) h
  | not p ih =>
    obtain ⟨inner, hp, rfl⟩ := map_eq_ok.mp h
    rw [bare, ih hp]
  | compare path r v => exact @Leaf.bare_of_eval engine record fieldless path (.compare r v) t h
  | like path pattern negated =>
    exact @Leaf.bare_of_eval engine record fieldless path (.like pattern negated) t h
  | contains path v negated =>
    exact @Leaf.bare_of_eval engine record fieldless path (.contains v negated) t h
  | size path r v => exact @Leaf.bare_of_eval engine record fieldless path (.size r v) t h

/-- Of two records without fields no predicate tells which is which. -/
theorem eval_alike_fieldless {record' : Json} (fieldless : Fieldless record)
    (fieldless' : Fieldless record') : p.eval engine record = p.eval engine record' := by
  induction p with
  | and p q ihp ihq | or p q ihp ihq => rw [eval, eval, ihp, ihq]
  | not p ih => rw [eval, eval, ih]
  | compare | like | contains =>
    simp only [eval, evalCompare, evalLike, evalContains, someValue_fieldless fieldless,
      someValue_fieldless fieldless']
  | size path r v =>
    cases v with
    | integer n =>
      rw [eval, eval, evalSize_fieldless fieldless, evalSize_fieldless fieldless']
    | _ => rfl

theorem exists_leaf_on {leaf : Predicate} (mem : leaf ∈ p.leaves) :
    ∃ (l : Leaf) (path : Path), leaf = l.on path := by
  induction p with
  | and p q ihp ihq | or p q ihp ihq => exact (List.mem_append.mp mem).elim ihp ihq
  | not p ih => exact ih mem
  | compare path r v => exact ⟨.compare r v, path, List.mem_singleton.mp mem⟩
  | like path pattern negated => exact ⟨.like pattern negated, path, List.mem_singleton.mp mem⟩
  | contains path v negated => exact ⟨.contains v negated, path, List.mem_singleton.mp mem⟩
  | size path r v => exact ⟨.size r v, path, List.mem_singleton.mp mem⟩

/-- All that can be wrong is a size that is compared with what is no integer, and a pattern that is
refused. -/
theorem eval_fieldless_error (fieldless : Fieldless record) {x : ExecutionError}
    (h : p.eval engine record = .error x) : p.Refused engine x ∨
      ∃ path r v, size path r v ∈ p.leaves ∧ (∀ n, v ≠ .integer n) ∧
        x = .invalidSizeArgument path.selector v.typeName := by
  obtain ⟨_, mem, h⟩ := leaf_of_eval_error h
  obtain ⟨leaf, path, rfl⟩ := exists_leaf_on mem
  cases leaf with
  | like pattern negated =>
    rcases bind_eq_error.mp h with refused | ⟨items, _, h⟩
    · exact .inl ⟨path, pattern, negated, mem, refused⟩
    · rw [evalLike, someValue_fieldless fieldless] at h
      cases h
  | size r v =>
    cases v with
    | integer n =>
      rw [Leaf.on, eval, evalSize_fieldless fieldless] at h
      cases h
    | _ =>
      cases h
      exact .inr ⟨path, r, _, mem, fun n => Value.noConfusion, rfl⟩
  | compare r v =>
    rw [Leaf.on, eval, evalCompare, someValue_fieldless fieldless] at h
    cases h
  | contains v negated =>
    rw [Leaf.on, eval, evalContains, someValue_fieldless fieldless] at h
    cases h

/-- Where sizes are compared with integers a truth is missed for a refused pattern only. -/
theorem eval_bare (fieldless : Fieldless record) (integers : p.CountsIntegers) :
    p.eval engine record = .ok p.bare ∨ p.FailsAtPattern engine record := by
  cases worth : p.eval engine record with
  | ok t => exact .inl (congrArg Except.ok (bare_of_eval fieldless worth))
  | error x =>
    rcases eval_fieldless_error fieldless worth with refused | ⟨path, r, v, mem, wrong, _⟩
    · exact .inr ⟨x, refused, worth⟩
    · obtain ⟨n, whole⟩ := integers path r v mem
      exact absurd whole (wrong n)

theorem mem_paths_of_leaf {leaf : Predicate} (mem : leaf ∈ p.leaves) {path : Path}
    (own : path ∈ leaf.paths) : path ∈ p.paths := by
  induction p with
  | and p q ihp ihq | or p q ihp ihq =>
    rcases List.mem_append.mp mem with mem | mem
    · exact List.mem_append_left _ (ihp mem)
    · exact List.mem_append_right _ (ihq mem)
  | not p ih => exact ih mem
  | compare | like | contains | size =>
    cases List.mem_singleton.mp mem
    exact own

/-- A predicate over single values alone is unknown of a record without fields. -/
theorem bare_unknown (plain : ∀ path ∈ p.paths, path.hasCollection = false)
    (noSize : ∀ path r v, size path r v ∉ p.leaves) : p.bare = .unknown := by
  induction p with
  | and p q ihp ihq | or p q ihp ihq =>
    have left := ihp (fun path mem => plain path (List.mem_append_left _ mem))
      fun path r v mem => noSize path r v (List.mem_append_left _ mem)
    have right := ihq (fun path mem => plain path (List.mem_append_right _ mem))
      fun path r v mem => noSize path r v (List.mem_append_right _ mem)
    rw [bare, left, right]
    rfl
  | not p ih =>
    rw [bare, ih plain noSize]
    rfl
  | compare path | like path | contains path =>
    rw [bare, Leaf.bare, plain path (List.mem_singleton_self _)]
    · exact negateIf_unknown _
    · exact fun _ _ => Leaf.noConfusion
    · exact fun _ _ => Leaf.noConfusion
  | size path r v => exact absurd (List.mem_singleton_self _) (noSize path r v)

end

/-- What is no object is read as an object without fields, whatever the query. So it is never
refused for its shape: the only errors are those of a size compared with what is no integer and of a
pattern that the engine refuses. Else the predicate is worth what its leaves are where there is
nothing, which is unknown of those that cross no collection: such a query never selects it. -/
theorem eval_no_object {engine : RegexEngine} {scope : Scope} {query : String} {p : Predicate}
    (compiled : ofQuery scope query = .ok p) {record : Json}
    (scalar : ∀ fields, record ≠ .object fields) :
    p.eval engine record = p.eval engine (.object []) ∧
    (∀ x, p.eval engine record = .error x → p.Refused engine x ∨
      ∃ path r v, size path r v ∈ p.leaves ∧ (∀ n, v ≠ .integer n) ∧
        x = .invalidSizeArgument path.selector v.typeName) ∧
    (p.CountsIntegers → p.eval engine record = .ok p.bare ∨ p.FailsAtPattern engine record) ∧
    ((∀ path ∈ p.paths, path.hasCollection = false) →
      p.eval engine record = .ok .unknown ∧ p.selects engine record = .ok false ∨
        p.FailsAtPattern engine record) := by
  have fieldless := fieldless_of_no_object scalar
  refine ⟨eval_alike_fieldless fieldless fieldless_empty, fun x => eval_fieldless_error fieldless,
    eval_bare fieldless, fun plain => ?_⟩
  have noSize : ∀ path r v, size path r v ∉ p.leaves := by
    intro path r v mem
    obtain ⟨e, _, made⟩ := ofQuery_eq_ok.mp compiled
    have own := plain path (mem_paths_of_leaf mem (List.mem_singleton_self _))
    rw [Path.hasCollection, collection_of_size made mem, Bool.or_true] at own
    cases own
  refine (eval_bare fieldless fun path r v mem => absurd mem (noSize path r v)).imp
    (fun worth => ?_) id
  rw [bare_unknown plain noSize] at worth
  refine ⟨worth, ?_⟩
  rw [selects, worth]
  rfl

/-- No age is known of the number five, but it has not been weighed. -/
theorem eval_no_object_of_clinic :
    ofQuery Clinic.petScope "age=ge=2;weights=lt=1" = .ok (.or
      (.compare ⟨[], ⟨"age", .integer, .single⟩⟩ .ge (.integer 2))
      (.size ⟨[], ⟨"weights", .double, .collection⟩⟩ .lt (.integer 1))) ∧
    (or (.compare ⟨[], ⟨"age", .integer, .single⟩⟩ .ge (.integer 2))
      (.size ⟨[], ⟨"weights", .double, .collection⟩⟩ .lt (.integer 1))).eval .standard
        (.number (.integer 5)) = .ok .true := by
  have compiled : ofQuery Clinic.petScope "age=ge=2;weights=lt=1" = .ok (.or
      (.compare ⟨[], ⟨"age", .integer, .single⟩⟩ .ge (.integer 2))
      (.size ⟨[], ⟨"weights", .double, .collection⟩⟩ .lt (.integer 1))) := by cbv
  have integers : (or (.compare ⟨[], ⟨"age", .integer, .single⟩⟩ .ge (.integer 2))
      (.size ⟨[], ⟨"weights", .double, .collection⟩⟩ .lt (.integer 1))).CountsIntegers := by
    intro path r v mem
    simp only [leaves, List.cons_append, List.nil_append, List.mem_cons, List.not_mem_nil, or_false,
      reduceCtorEq, false_or, size.injEq] at mem
    exact ⟨1, mem.2.2⟩
  obtain ⟨_, _, worth, _⟩ :=
    @eval_no_object .standard _ _ _ compiled (.number (.integer 5)) fun _ => Json.noConfusion
  refine ⟨compiled, (worth integers).resolve_right ?_⟩
  rintro ⟨x, ⟨_, _, _, mem, _⟩, _⟩
  simp [leaves] at mem

/-- The number five is selected as a pet that weighs something else. -/
theorem no_object_selected :
    ¬ ∀ (scope : Scope) (query : String) (p : Predicate) (record : Json),
      ofQuery scope query = .ok p → (∀ fields, record ≠ .object fields) →
        p.eval .standard record ≠ .ok .true := by
  intro never
  have compiled : ofQuery Clinic.petScope "weights!=3" =
      .ok (.contains ⟨[], ⟨"weights", .double, .collection⟩⟩ (.double (.ofInt 3)) true) := by cbv
  refine never _ _ _ (.number (.integer 5)) compiled (fun _ => Json.noConfusion) ?_
  rfl

end Predicate

end EntityFilter

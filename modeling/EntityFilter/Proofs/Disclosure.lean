import EntityFilter.Proofs.Clinic
import EntityFilter.Proofs.Leaves

namespace EntityFilter

/-- The attributes that are looked up, each with its entity, while `name` and then `rest` are
followed from an entity. -/
def Path.lookups (graph : AttributeGraph) (entity name : String) (rest : List String) :
    List (String × String) :=
  (entity, name) ::
    match graph.attribute? entity name with
    | none => []
    | some a =>
      match rest with
      | [] => []
      | next :: rest =>
        match a.type.entityName? with
        | none => []
        | some e => lookups graph e next rest

namespace Scope

/-- The attributes that are looked up for a selector: none where the root is not registered. -/
def lookups (scope : Scope) (selector : String) : List (String × String) :=
  if scope.graph.containsEntity scope.root then
    match Path.segmentNames (scope.policy.mapSelector selector) with
    | [] => []
    | name :: rest => Path.lookups scope.graph scope.root name rest
  else []

/-- Two scopes that differ in nothing an allowed selector leads to. -/
structure Agree (s t : Scope) : Prop where
  root : s.root = t.root
  registered : s.graph.containsEntity s.root = t.graph.containsEntity s.root
  allowed : ∀ selector, s.policy.isAllowed selector = t.policy.isAllowed selector
  wildcard : s.policy.alwaysWildcard = t.policy.alwaysWildcard
  aliases : ∀ selector, s.policy.isAllowed selector = true →
    s.policy.mapSelector selector = t.policy.mapSelector selector
  attributes : ∀ selector, s.policy.isAllowed selector = true → ∀ q ∈ s.lookups selector,
    s.graph.attribute? q.1 q.2 = t.graph.attribute? q.1 q.2

end Scope

/-- A walk sees of a graph only what it looks up. -/
theorem Path.walk_congr {g g' : AttributeGraph} {selector entity name : String}
    {hops : List Attribute} {rest : List String}
    (h : ∀ q ∈ lookups g entity name rest, g.attribute? q.1 q.2 = g'.attribute? q.1 q.2) :
    walk g selector entity hops name rest = walk g' selector entity hops name rest := by
  have first : g.attribute? entity name = g'.attribute? entity name :=
    h (entity, name) (by rw [lookups]; exact List.mem_cons_self)
  induction rest generalizing entity name hops with
  | nil => rw [walk, walk, first]
  | cons next rest ih =>
    rw [walk, walk, ← first]
    cases found : g.attribute? entity name with
    | none => rfl
    | some a =>
      cases refers : a.type.entityName? with
      | none => simp [refers]
      | some e =>
        simp only [refers]
        have more : ∀ q ∈ lookups g e next rest, g.attribute? q.1 q.2 = g'.attribute? q.1 q.2 := by
          intro q hq
          refine h q ?_
          rw [lookups, found]
          simp only [refers]
          exact List.mem_cons_of_mem _ hq
        exact ih more (more (e, next) (by rw [lookups]; exact List.mem_cons_self))

namespace Scope.Agree

variable {s t : Scope}

/-- Resolution asks a scope for nothing that scopes which agree could tell apart. -/
theorem resolve_eq (h : s.Agree t) (selector : String) :
    Path.resolve s.graph s.root s.policy selector =
      Path.resolve t.graph t.root t.policy selector := by
  rw [Path.resolve, Path.resolve, ← h.root, ← h.registered, ← h.allowed]
  cases allowed : s.policy.isAllowed selector with
  | false => rfl
  | true =>
    rw [← h.aliases selector allowed]
    cases registered : s.graph.containsEntity s.root with
    | false => rfl
    | true =>
      simp only [Bool.not_true, Bool.false_eq_true, ↓reduceIte]
      refine Path.walk_congr fun q hq => h.attributes selector allowed q ?_
      simpa [lookups, registered, Path.segmentNames] using hq

theorem ofTree_eq (h : s.Agree t) (e : Expression) :
    Predicate.ofTree s e = Predicate.ofTree t e :=
  Predicate.ofTree_congr fun c _ => Predicate.ofComparison_congr h.wildcard (h.resolve_eq c.selector)

end Scope.Agree

namespace Predicate

open Fallible

theorem allowed_of_compile {scope : Scope} {c : Comparison} {p : Predicate}
    (h : c.compile scope = .ok p) : scope.policy.isAllowed c.selector = true := by
  obtain ⟨path, resolved, _⟩ := leafOf_compile h
  exact (Path.resolve_eq_ok.mp resolved).1

/-- Nothing compiles with a selector that the allow-list does not hold. -/
theorem allowed_of_ofExpression {scope : Scope} {e : Expression} {p : Predicate}
    (h : ofExpression scope e = .ok p) : ∀ s ∈ e.leaves, scope.policy.isAllowed s = true := by
  intro s hs
  rw [Expression.leaves_eq_map] at hs
  obtain ⟨c, hc, rfl⟩ := List.mem_map.mp hs
  have all := map_leaves_ofTree scope e
  rw [ofTree_of_ofExpression h] at all
  obtain ⟨leaf, made⟩ := mapM_ok_all all.symm c hc
  exact allowed_of_compile made

/-- A tree with a selector that is not allowed does not compile, and scopes that agree on the
allowed selectors give the same result for every tree. -/
theorem ofExpression_discloses_allowed (scope : Scope) :
    (∀ e : Expression, (∃ s ∈ e.leaves, scope.policy.isAllowed s = false) →
      ∀ p, ofExpression scope e ≠ .ok p) ∧
    ∀ other, scope.Agree other → ∀ e, ofExpression scope e = ofExpression other e := by
  constructor
  · rintro e ⟨s, hs, forbidden⟩ p compiled
    have allowed := allowed_of_ofExpression compiled s hs
    rw [forbidden] at allowed
    cases allowed
  · intro other agree e
    rw [ofExpression, ofExpression, agree.ofTree_eq]

theorem clinic_agrees : Clinic.scope.Agree Clinic.bareScope := by
  have names : Clinic.scope.policy.allowed.names = ["pets.age", "pets.weights", "town"] := by cbv
  refine ⟨rfl, by cbv, fun _ => rfl, rfl, fun s hs => ?_, fun s hs q hq => ?_⟩
  · rw [Policy.isAllowed_iff, names] at hs
    simp only [List.mem_cons, List.not_mem_nil, or_false] at hs
    rcases hs with rfl | rfl | rfl <;> cbv
  · rw [Policy.isAllowed_iff, names] at hs
    simp only [List.mem_cons, List.not_mem_nil, or_false] at hs
    have age : Clinic.scope.lookups "pets.age" = [("Owner", "pets"), ("Pet", "age")] := by cbv
    have weights :
        Clinic.scope.lookups "pets.weights" = [("Owner", "pets"), ("Pet", "weights")] := by cbv
    have town : Clinic.scope.lookups "town" = [("Owner", "city")] := by cbv
    rcases hs with rfl | rfl | rfl
    · rw [age, List.mem_cons, List.mem_singleton] at hq
      rcases hq with rfl | rfl <;> cbv
    · rw [weights, List.mem_cons, List.mem_singleton] at hq
      rcases hq with rfl | rfl <;> cbv
    · rw [town, List.mem_singleton] at hq
      subst hq
      cbv

/-- What is asked of the phone is refused alike where it is declared and where it is not. -/
theorem ofExpression_discloses_allowed_of_clinic :
    Clinic.scope.Agree Clinic.bareScope ∧
      ofExpression Clinic.scope (.comparison "phone" .eq (.ofBare "1")) =
        ofExpression Clinic.bareScope (.comparison "phone" .eq (.ofBare "1")) ∧
      ∀ p, ofExpression Clinic.scope (.comparison "phone" .eq (.ofBare "1")) ≠ .ok p :=
  ⟨clinic_agrees, (ofExpression_discloses_allowed Clinic.scope).2 _ clinic_agrees _,
    (ofExpression_discloses_allowed Clinic.scope).1 _ ⟨"phone", by simp [Expression.leaves], by cbv⟩⟩

end Predicate

end EntityFilter

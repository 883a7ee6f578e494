import EntityFilter.Proofs.Clinic
import EntityFilter.Proofs.Leaves
import EntityFilter.Proofs.Typing

namespace EntityFilter

open Fallible

namespace Value

/-- A whole number is one of its word, and a double is finite. -/
def InRange : Value → Prop
  | integer n => Text.fitsWord 32 n = true
  | long n => Text.fitsWord 64 n = true
  | double x => x.isFinite = true
  | _ => True

/-- The value is of the declared type, or of that of the literal's suffix if the type is a number's.
-/
structure Suits (l : Literal) (type : AttributeType) (v : Value) : Prop where
  typed : isOf (l.typeAt type) v = true
  inRange : v.InRange

theorem inRange_ofLong {l : Literal} {v : Value} (h : ofLong l = .ok v) : v.InRange := by
  obtain ⟨n, read, rfl⟩ := Option.map_eq_some_iff.mp (orRefuse_eq_ok.mp h)
  exact (Option.filter_eq_some_iff.mp read).2

theorem inRange_ofDouble {l : Literal} {v : Value} (h : ofDouble l = .ok v) : v.InRange := by
  obtain ⟨x, read, rfl⟩ := Option.map_eq_some_iff.mp (orRefuse_eq_ok.mp h)
  exact (Option.filter_eq_some_iff.mp read).2

theorem inRange_ofNumber {l : Literal} {plain : Literal → Coerced} {v : Value}
    (plainly : ∀ w, plain l = .ok w → w.InRange) (h : ofNumber l plain = .ok v) : v.InRange := by
  rw [ofNumber] at h
  split at h
  · exact inRange_ofLong h
  · exact inRange_ofDouble h
  · exact plainly v h

/-- Only some types of numbers have a range. -/
theorem inRange_of_isOf {t : AttributeType} {v : Value} (h : isOf t v = true)
    (other : t ≠ .integer ∧ t ≠ .long ∧ t ≠ .double) : v.InRange := by
  obtain ⟨noInteger, noLong, noDouble⟩ := other
  cases v with
  | integer n => cases t <;> first | exact absurd rfl noInteger | cases h
  | long n => cases t <;> first | exact absurd rfl noLong | cases h
  | double x => cases t <;> first | exact absurd rfl noDouble | cases h
  | _ => trivial

/-- A whole number that was read is one of its word, and a double is finite. -/
theorem inRange_ofLiteral {l : Literal} {t : AttributeType} {v : Value} (h : ofLiteral l t = .ok v) :
    v.InRange := by
  cases t with
  | integer =>
    simp only [ofLiteral] at h
    refine inRange_ofNumber (fun w hw => ?_) h
    obtain ⟨n, read, rfl⟩ := Option.map_eq_some_iff.mp (orRefuse_eq_ok.mp hw)
    exact (Option.filter_eq_some_iff.mp read).2
  | long => exact inRange_ofNumber (fun _ => inRange_ofLong) h
  | double => exact inRange_ofNumber (fun _ => inRange_ofDouble) h
  | decimal =>
    simp only [ofLiteral] at h
    refine inRange_ofNumber (fun w hw => ?_) h
    obtain ⟨d, _, rfl⟩ := Option.map_eq_some_iff.mp (orRefuse_eq_ok.mp hw)
    trivial
  | _ => exact inRange_of_isOf (isOf_ofLiteral h) (by simp [Literal.typeAt, AttributeType.isNumeric])

/-- A literal keeps to its type and to what the type can hold. -/
theorem suits_ofLiteral {l : Literal} {t : AttributeType} {v : Value} (h : ofLiteral l t = .ok v) :
    v.Suits l t :=
  ⟨isOf_ofLiteral h, inRange_ofLiteral h⟩

/-- What a collection's size is compared with is an integer, or a long number exactly if the literal
says so. -/
theorem ofCount_cases {l : Literal} {v : Value} (h : ofCount l = .ok v) :
    v.InRange ∧ ((∃ n, v = .integer n) ∧ l.suffix = none ∨
      (∃ n, v = .long n) ∧ l.suffix = some .long) := by
  simp only [ofCount] at h
  split at h
  · cases h
  · rename_i read suffix
    cases h
    exact ⟨(Option.filter_eq_some_iff.mp read).2, .inr ⟨⟨_, rfl⟩, suffix⟩⟩
  · cases h
  · rename_i suffix
    split at h
    · rename_i fits
      cases h
      exact ⟨fits, .inl ⟨⟨_, rfl⟩, suffix⟩⟩
    · cases h

end Value

namespace Relation

theorem isOrdering_eq_false {r : Relation} : r.isOrdering = false ↔ r = .eq ∨ r = .ne := by
  cases r <;> decide

theorem eq_of_equality {r : Relation} (h : r.isOrdering = false) :
    r = if r == .ne then .ne else .eq := by
  cases r <;> first | rfl | cases h

end Relation

/-- The comparison asks for text that matches a pattern. -/
def Comparison.AsksForPattern (always : Bool) (c : Comparison) (target : Attribute) : Prop :=
  target.type = .string ∧ (c.relation = .eq ∨ c.relation = .ne) ∧
    (always = true ∨ '*' ∈ c.argument.text.toList)

namespace Predicate

/-- A leaf for the comparison, with a target that it can ask for and a value to compare that with.
-/
inductive Disciplined (scope : Scope) (c : Comparison) : Predicate → Prop where
  | compare {path : Path} {r : Relation} {v : Value}
    (resolved : Path.resolve scope.graph scope.root scope.policy c.selector = .ok path)
    (plain : path.target.type.isEntity = false) (single : path.isCollectionValued = false)
    (related : r = c.relation) (ordered : r.isOrdering = true → path.target.type.isOrdered = true)
    (exact : ¬ c.AsksForPattern scope.policy.alwaysWildcard path.target)
    (value : v.Suits c.argument path.target.type) : Disciplined scope c (.compare path r v)
  | contains {path : Path} {v : Value} {negated : Bool}
    (resolved : Path.resolve scope.graph scope.root scope.policy c.selector = .ok path)
    (plain : path.target.type.isEntity = false) (collection : path.isCollectionValued = true)
    (related : c.relation = if negated then .ne else .eq)
    (exact : ¬ c.AsksForPattern scope.policy.alwaysWildcard path.target)
    (value : v.Suits c.argument path.target.type) : Disciplined scope c (.contains path v negated)
  | like {path : Path} {pattern : LikePattern} {negated : Bool}
    (resolved : Path.resolve scope.graph scope.root scope.policy c.selector = .ok path)
    (related : c.relation = if negated then .ne else .eq)
    (asks : c.AsksForPattern scope.policy.alwaysWildcard path.target) :
    Disciplined scope c (.like path pattern negated)
  | size {path : Path} {r : Relation} {v : Value}
    (resolved : Path.resolve scope.graph scope.root scope.policy c.selector = .ok path)
    (collection : path.isCollectionValued = true) (related : r = c.relation)
    (ordering : r.isOrdering = true) (inRange : v.InRange)
    (value : (∃ n, v = .integer n) ∧ c.argument.suffix = none ∨
      (∃ n, v = .long n) ∧ c.argument.suffix = some .long) : Disciplined scope c (.size path r v)

/-- A comparison asks for a pattern just when it is an equality of text that has a star or always
asks for a part. -/
theorem patternFor?_isSome_iff (policy : Policy) (path : Path) (c : Comparison) :
    (patternFor? policy path c.relation c.argument).isSome = true ↔
      c.AsksForPattern policy.alwaysWildcard path.target := by
  have literal : (LikePattern.ofLiteral? c.argument policy.alwaysWildcard).isSome = true ↔
      policy.alwaysWildcard = true ∨ '*' ∈ c.argument.text.toList := by
    simp only [LikePattern.ofLiteral?, Literal.hasWildcard]
    cases policy.alwaysWildcard <;> simp
  rw [Comparison.AsksForPattern, ← literal, ← Relation.isOrdering_eq_false]
  by_cases text : path.target.type = .string <;> cases ordering : c.relation.isOrdering <;>
    simp [patternFor?, text, ordering]

/-- What a backend may rely on: the target of a leaf is one that the leaf can ask for, and its value
is of the declared type, or of the one that a suffix names. -/
theorem disciplined_of_compile {scope : Scope} {c : Comparison} {leaf : Predicate}
    (h : c.compile scope = .ok leaf) : Disciplined scope c leaf := by
  obtain ⟨path, resolved, shape⟩ := leafOf_compile h
  have asks := patternFor?_isSome_iff scope.policy path c
  cases shape with
  | like text equality asked =>
    have found := asks.mp (by simp [patternFor?, text, equality, asked])
    exact .like resolved (Relation.eq_of_equality equality) found
  | compare single plain ordered exact read =>
    have unasked : ¬ c.AsksForPattern scope.policy.alwaysWildcard path.target := by
      simp [← asks, exact]
    exact .compare resolved plain single rfl ordered unasked (Value.suits_ofLiteral read)
  | contains collection plain equality exact read =>
    have unasked : ¬ c.AsksForPattern scope.policy.alwaysWildcard path.target := by
      simp [← asks, exact]
    exact .contains resolved plain collection (Relation.eq_of_equality equality) unasked
      (Value.suits_ofLiteral read)
  | size collection ordering read =>
    obtain ⟨inRange, value⟩ := Value.ofCount_cases read
    exact .size resolved collection rfl ordering inRange value

/-- Whatever a tree is compiled to, each of its leaves is a disciplined one for the comparison in
its place. -/
theorem leaves_disciplined {scope : Scope} {e : Expression} {p : Predicate}
    (h : ofExpression scope e = .ok p) :
    List.Forall₂ (Disciplined scope) e.comparisons p.leaves := by
  have compiled := map_leaves_ofTree scope e
  rw [ofTree_of_ofExpression h] at compiled
  exact (mapM_ok_forall₂ compiled.symm).imp fun _ _ => disciplined_of_compile

/-- A leaf of each kind, and a size that is a long number. -/
theorem leaves_disciplined_of_clinic :
    ofExpression Clinic.petScope Clinic.weighed = .ok Clinic.weighedPredicate ∧
      List.Forall₂ (Disciplined Clinic.petScope) Clinic.weighed.comparisons
        Clinic.weighedPredicate.leaves := by
  have compiled : ofExpression Clinic.petScope Clinic.weighed = .ok Clinic.weighedPredicate := by cbv
  exact ⟨compiled, leaves_disciplined compiled⟩

end Predicate

end EntityFilter

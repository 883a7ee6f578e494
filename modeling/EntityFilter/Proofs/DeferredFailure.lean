import EntityFilter.Proofs.AllOrNothing
import EntityFilter.Proofs.Clinic
import EntityFilter.Proofs.Conformity
import EntityFilter.Proofs.Leaves
import EntityFilter.Proofs.RefusedPatterns

namespace EntityFilter

open Fallible Record

/-- Whether the suffix of a literal goes with the leaf it was compiled to: sizes take none, text
takes any, and a number only the one that names its declared type. -/
def Literal.SuffixFits (l : Literal) : Predicate → Prop
  | .size .. => l.suffix = none
  | .compare path .. | .like path .. | .contains path .. =>
    ∀ s, l.suffix = some s → path.target.type = .string ∨ path.target.type = s.type
  | _ => True

def Comparison.SuffixFits (scope : Scope) (c : Comparison) : Prop :=
  ∀ leaf, c.compile scope = .ok leaf → c.argument.SuffixFits leaf

theorem Comparison.suffixFits_of_none {c : Comparison} (scope : Scope)
    (h : c.argument.suffix = none) : c.SuffixFits scope := by
  intro leaf _
  cases leaf <;> simp [Literal.SuffixFits, h]

namespace Predicate

/-- A leaf that looks for a number of another type than its target declares. -/
def Misfit (path : Path) (l : Literal) (leaf : Predicate) : Prop :=
  (∃ r v negated, leaf = .compare path r v ∨ leaf = .contains path v negated) ∧
    path.target.type.isNumeric = true ∧ ∃ s, l.suffix = some s ∧ s.type ≠ path.target.type

/-- A leaf can only have the wrong type by a suffix, which is taken at its word. -/
theorem Misfit.not_suffixFits {path : Path} {l : Literal} {leaf : Predicate}
    (h : Misfit path l leaf) : ¬ l.SuffixFits leaf := by
  obtain ⟨⟨r, v, negated, rfl | rfl⟩, numeric, s, suffix, differs⟩ := h
  all_goals
    intro fits
    rcases fits s suffix with text | same
    · rw [text] at numeric
      cases numeric
    · exact differs same.symm

/-- A size is an integer unless its suffix says that it is long. -/
theorem ofCount_eq_ok {l : Literal} {v : Value} (h : Value.ofCount l = .ok v) :
    (∃ n, v = .integer n) ∨ l.suffix = some .long ∧ ∃ n, v = .long n := by
  simp only [Value.ofCount] at h
  split at h
  · cases h
  · rename_i suffix
    cases h
    exact .inr ⟨suffix, _, rfl⟩
  · cases h
  · split at h
    · cases h
      exact .inl ⟨_, rfl⟩
    · cases h

/-- A literal of the target's type compares with every value of it, so a comparison that fails has a
literal of another type, which only a suffix makes. -/
theorem compareValue_error {path : Path} {r : Relation} {l : Literal} {literal v : Value}
    {x : ExecutionError} (read : Value.ofLiteral l path.target.type = .ok literal)
    (ordered : r.isOrdering = true → path.target.type.isOrdered = true)
    (declared : Value.isOf path.target.type v = true)
    (h : compareValue path r literal v = .error x) :
    (path.target.type.isNumeric = true ∧ ∃ s, l.suffix = some s ∧ s.type ≠ path.target.type) ∧
      ∃ field, x = .typeMismatch path.selector field literal.typeName := by
  have typed := Value.isOf_ofLiteral read
  rw [compareValue] at h
  split at h
  · cases h
  · rename_i incomparable
    cases h
    refine ⟨Literal.exists_suffix_of_typeAt_ne fun same => ?_, _, rfl⟩
    rw [same] at typed
    obtain ⟨o, comparable⟩ := Value.comparable?_of_isOf declared typed ordered
    rw [incomparable] at comparable
    cases comparable

theorem matchValue_total (path : Path) (items : List LikeItem) {v : Value}
    (text : Value.isOf .string v = true) : ∃ b, matchValue path items v = .ok b := by
  cases v <;> cases text
  exact ⟨_, rfl⟩

variable {engine : RegexEngine} {graph : AttributeGraph} {entity : String} {names : List String}
  {path : Path} {record : Json} {x : ExecutionError}

/-- A test of reached values fails for the record, or by itself at a value of the declared type. -/
theorem someValue_error_cases {test : Value → Except ExecutionError Bool}
    (leads : Leads graph entity names path.hops path.target)
    (plain : path.target.type.isEntity = false) (h : someValue record path test = .error x) :
    (IsInvalid path x ∧ ¬ Conforms graph entity record) ∨
      ∃ v, Value.isOf path.target.type v = true ∧ test v = .error x := by
  by_cases conforms : Conforms graph entity record
  · exact .inr (someValue_error_of_conforms leads conforms plain h)
  · exact (someValue_error h).imp (fun invalid => ⟨invalid, conforms⟩) id

theorem counts_error_cases (leads : Leads graph entity names path.hops path.target)
    (collection : path.isCollectionValued = true) (h : counts record path = .error x) :
    IsInvalid path x ∧ ¬ Conforms graph entity record := by
  refine ⟨counts_error h, fun conforms => ?_⟩
  obtain ⟨ns, ok⟩ := counts_of_conforms leads conforms collection
  rw [ok] at h
  cases h

/-- A compiled leaf fails for its pattern, for the data, for the suffix of a size or for that of a
number. -/
theorem LeafOf.error_cases {policy : Policy} {r : Relation} {l : Literal} {leaf : Predicate}
    (of : LeafOf policy path r l leaf) (leads : Leads graph entity names path.hops path.target)
    (h : leaf.eval engine record = .error x) :
    leaf.Refused engine x ∨ (IsInvalid path x ∧ ¬ Conforms graph entity record) ∨
    ((∃ r v, leaf = .size path r v) ∧ l.suffix = some .long ∧
      ∃ literal, x = .invalidSizeArgument path.selector literal) ∨
    (Misfit path l leaf ∧ ∃ field literal, x = .typeMismatch path.selector field literal) := by
  cases of with
  | @like pattern text =>
    rcases bind_eq_error.mp h with refused | ⟨items, _, h⟩
    · exact .inl ⟨path, pattern, _, List.mem_singleton_self _, refused⟩
    rcases someValue_error_cases leads (by rw [text]; rfl) (map_eq_error.mp h) with data | ⟨v, hv, he⟩
    · exact .inr (.inl data)
    · rw [text] at hv
      obtain ⟨b, ok⟩ := matchValue_total path _ hv
      rw [ok] at he
      cases he
  | compare single plain ordered _ read =>
    rcases someValue_error_cases leads plain h with data | ⟨v, hv, he⟩
    · exact .inr (.inl data)
    · obtain ⟨misfit, field, rfl⟩ := compareValue_error read ordered hv he
      exact .inr (.inr (.inr ⟨⟨⟨r, _, false, .inl rfl⟩, misfit⟩, field, _, rfl⟩))
  | contains collection plain _ _ read =>
    rcases someValue_error_cases leads plain (map_eq_error.mp h) with data | ⟨v, hv, he⟩
    · exact .inr (.inl data)
    · obtain ⟨misfit, field, rfl⟩ := compareValue_error read (fun h => by cases h) hv he
      exact .inr (.inr (.inr ⟨⟨⟨r, _, _, .inr rfl⟩, misfit⟩, field, _, rfl⟩))
  | size collection _ read =>
    rcases ofCount_eq_ok read with ⟨n, rfl⟩ | ⟨suffix, n, rfl⟩
    · rcases bind_eq_error.mp h with h | ⟨ns, _, h⟩
      · exact .inr (.inl (counts_error_cases leads collection h))
      · obtain ⟨count, _, he⟩ := any_error_mem h
        cases he
    · cases h
      exact .inr (.inr (.inl ⟨⟨r, _, rfl⟩, suffix, _, rfl⟩))

/-- A compiled predicate fails for a pattern, or as the leaf of one of its comparisons does. -/
theorem comparison_of_eval_error {scope : Scope} {e : Expression} {p : Predicate}
    (compiled : ofExpression scope e = .ok p) (h : p.eval engine record = .error x) :
    p.Refused engine x ∨ ∃ c ∈ e.comparisons, ∃ path leaf, c.compile scope = .ok leaf ∧
      ((IsInvalid path x ∧ ¬ Conforms scope.graph scope.root record) ∨
      ((∃ r v, leaf = .size path r v) ∧ c.argument.suffix = some .long ∧
        ∃ literal, x = .invalidSizeArgument path.selector literal) ∨
      (Misfit path c.argument leaf ∧
        ∃ field literal, x = .typeMismatch path.selector field literal)) := by
  obtain ⟨leaf, mem, failed⟩ := leaf_of_eval_error h
  obtain ⟨c, hc, made⟩ := comparison_of_leaf compiled mem
  obtain ⟨path, resolved, of⟩ := leafOf_compile made
  obtain ⟨_, _, leads⟩ := Path.resolve_eq_ok.mp resolved
  rcases of.error_cases leads failed with refused | causes
  · refine .inl (refused.mono fun other own => ?_)
    rw [of.leaves_eq] at own
    exact List.mem_singleton.mp own ▸ mem
  · exact .inr ⟨c, hc, path, leaf, made, causes⟩

/-- Where suffixes fit and the record conforms, evaluation succeeds unless it comes to a pattern
that the engine refuses; and each way to fail has its cause: a size compared with a long number, a
number of another type, a record that does not conform, a pattern that is refused. -/
theorem eval_failure_boundary {scope : Scope} {e : Expression} {p : Predicate}
    (compiled : ofExpression scope e = .ok p) (engine : RegexEngine) (record : Json) :
    ((∀ c ∈ e.comparisons, c.SuffixFits scope) → Conforms scope.graph scope.root record →
      (∃ t, p.eval engine record = .ok t) ∨ p.FailsAtPattern engine record) ∧
    (∀ selector literal, p.eval engine record = .error (.invalidSizeArgument selector literal) →
      ∃ c ∈ e.comparisons, c.argument.suffix = some .long ∧
        ∃ path r v, c.compile scope = .ok (.size path r v) ∧ path.selector = selector) ∧
    (∀ selector field literal,
      p.eval engine record = .error (.typeMismatch selector field literal) →
        ∃ c ∈ e.comparisons, ∃ path leaf, c.compile scope = .ok leaf ∧
          Misfit path c.argument leaf ∧ path.selector = selector) ∧
    (∀ selector expected found,
      p.eval engine record = .error (.invalidField selector expected found) →
        ¬ Conforms scope.graph scope.root record) ∧
    (∀ pattern reason, p.eval engine record = .error (.pattern pattern reason) →
      p.Refused engine (.pattern pattern reason)) := by
  refine ⟨?_, ?_, ?_, ?_, ?_⟩
  · intro fits conforms
    cases h : p.eval engine record with
    | ok t => exact .inl ⟨t, rfl⟩
    | error x =>
      obtain refused | ⟨c, hc, path, leaf, made, ⟨_, broken⟩ | ⟨⟨r, v, rfl⟩, suffix, _⟩ | ⟨misfit, _⟩⟩ :=
        comparison_of_eval_error compiled h
      · exact .inr ⟨x, refused, h⟩
      · exact absurd conforms broken
      · have none : c.argument.suffix = none := fits c hc _ made
        rw [suffix] at none
        cases none
      · exact absurd (fits c hc leaf made) misfit.not_suffixFits
  · intro selector literal h
    obtain refused | ⟨c, hc, path, leaf, made,
        ⟨⟨_, _, he⟩, _⟩ | ⟨⟨r, v, rfl⟩, suffix, _, he⟩ | ⟨_, _, _, he⟩⟩ :=
      comparison_of_eval_error compiled h
    · obtain ⟨_, _, he⟩ := refused.eq_pattern
      cases he
    · cases he
    · cases he
      exact ⟨c, hc, suffix, path, r, v, made, rfl⟩
    · cases he
  · intro selector field literal h
    obtain refused | ⟨c, hc, path, leaf, made,
        ⟨⟨_, _, he⟩, _⟩ | ⟨_, _, _, he⟩ | ⟨misfit, _, _, he⟩⟩ :=
      comparison_of_eval_error compiled h
    · obtain ⟨_, _, he⟩ := refused.eq_pattern
      cases he
    · cases he
    · cases he
    · cases he
      exact ⟨c, hc, path, leaf, made, misfit, rfl⟩
  · intro selector expected found h
    obtain refused | ⟨c, _, path, leaf, _, ⟨_, broken⟩ | ⟨_, _, _, he⟩ | ⟨_, _, _, he⟩⟩ :=
      comparison_of_eval_error compiled h
    · obtain ⟨_, _, he⟩ := refused.eq_pattern
      cases he
    · exact broken
    · cases he
    · cases he
  · intro pattern reason h
    obtain refused | ⟨c, _, path, leaf, _, ⟨⟨_, _, he⟩, _⟩ | ⟨_, _, _, he⟩ | ⟨_, _, _, he⟩⟩ :=
      comparison_of_eval_error compiled h
    · exact refused
    · cases he
    · cases he
    · cases he

/-- A null among the pets and fields that are missing are as good as any. -/
theorem clinic_owner_conforms : Conforms Clinic.schema.graph "Owner" Clinic.owner := by
  have owner : Clinic.schema.table.get? "Owner" = some [⟨"city", .string, .single⟩,
      ⟨"phone", .string, .single⟩, ⟨"pets", .entity "Pet", .collection⟩] := by cbv
  have pet : Clinic.schema.table.get? "Pet" = some [⟨"name", .string, .single⟩,
      ⟨"age", .integer, .single⟩, ⟨"weights", .double, .collection⟩] := by cbv
  refine .intro fun name a v found field => ?_
  obtain ⟨attributes, registered, mem⟩ := Schema.mem_of_attribute? found
  rw [owner] at registered
  cases registered
  simp only [List.mem_cons, List.not_mem_nil, or_false] at mem
  rcases mem with rfl | rfl | rfl
  · cases field
  · cases field
  · cases field
    refine .collection rfl fun item hi notNull => ?_
    simp only [List.mem_cons, List.not_mem_nil, or_false] at hi
    rcases hi with rfl | rfl
    · cases notNull
    · refine .object (.intro fun name a v found field => ?_)
      obtain ⟨attributes, registered, mem⟩ := Schema.mem_of_attribute? found
      rw [pet] at registered
      cases registered
      simp only [List.mem_cons, List.not_mem_nil, or_false] at mem
      rcases mem with rfl | rfl | rfl
      · cases field
      · cases field
        exact .single rfl (.value (v := .integer 1) rfl)
      · cases field

/-- The question for newcomers has no pattern, so nothing is left that could fail. -/
theorem eval_failure_boundary_of_clinic :
    ofExpression Clinic.scope Clinic.newcomers = .ok Clinic.newcomersPredicate ∧
      Conforms Clinic.schema.graph "Owner" Clinic.owner ∧
      ∃ t, Clinic.newcomersPredicate.eval .standard Clinic.owner = .ok t := by
  have compiled : ofExpression Clinic.scope Clinic.newcomers =
      .ok Clinic.newcomersPredicate := by cbv
  have fits : ∀ c ∈ Clinic.newcomers.comparisons, c.SuffixFits Clinic.scope := by
    intro c hc
    refine c.suffixFits_of_none _ ?_
    simp only [Clinic.newcomers, Expression.comparisons, List.cons_append, List.nil_append,
      List.mem_cons, List.not_mem_nil, or_false] at hc
    rcases hc with rfl | rfl <;> rfl
  have boundary := eval_failure_boundary compiled .standard Clinic.owner
  refine ⟨compiled, clinic_owner_conforms, (boundary.1 fits clinic_owner_conforms).resolve_right ?_⟩
  rintro ⟨x, ⟨_, _, _, mem, _⟩, _⟩
  simp [Clinic.newcomersPredicate, leaves] at mem

/-- A literal of stars alone makes a pattern that is more than the engine compiles, and then no
record is good enough. -/
theorem conforming_not_total :
    ¬ ∀ (scope : Scope) (e : Expression) (p : Predicate) (record : Json),
      ofExpression scope e = .ok p → (∀ c ∈ e.comparisons, c.SuffixFits scope) →
      Conforms scope.graph scope.root record → ∃ t, p.eval .standard record = .ok t := by
  intro total
  have resolved : Path.resolve Clinic.scope.graph Clinic.scope.root Clinic.scope.policy "town" =
      .ok ⟨[], ⟨"city", .string, .single⟩⟩ := by cbv
  have compiled : ofExpression Clinic.scope (.comparison "town" .eq (.stars 40000)) =
      .ok (.like ⟨[], ⟨"city", .string, .single⟩⟩ (.ofGlob (List.replicate 40000 '*')) false) :=
    (ofExpression_alone ⟨"town", .eq, .stars 40000⟩).trans
      (compile_of_leafOf resolved (.like rfl rfl (LikePattern.ofLiteral?_stars (by decide))))
  have fits : ∀ c ∈ (Expression.comparison "town" .eq (.stars 40000)).comparisons,
      c.SuffixFits Clinic.scope := by
    intro c hc
    rw [List.mem_singleton.mp hc]
    exact Comparison.suffixFits_of_none _ rfl
  obtain ⟨t, fine⟩ := total _ _ _ _ compiled fits clinic_owner_conforms
  obtain ⟨x, fails⟩ := eval_stars 40000 (by decide) ⟨[], ⟨"city", .string, .single⟩⟩ false Clinic.owner
  rw [fails] at fine
  cases fine

end Predicate

end EntityFilter

import EntityFilter.Proofs.AllOrNothing
import EntityFilter.Proofs.Clinic
import EntityFilter.Proofs.Opposites

namespace EntityFilter

def Comparison.complement (c : Comparison) : Comparison :=
  { c with relation := c.relation.complement }

/-- Whether the selector, if it can be resolved, leads through no collection, and to none where an
order is asked for. -/
def Comparison.isSingle (scope : Scope) (c : Comparison) : Bool :=
  match Path.resolve scope.graph scope.root scope.policy c.selector with
  | .ok path => !path.hasCollectionHop && !(c.relation.isOrdering && path.isCollectionValued)
  | .error _ => true

namespace Expression

mutual

/-- The tree with neither `nand` nor `nor`. -/
def affirmed : Expression → Expression
  | comparison s r l => comparison s r l
  | joined .and a b => joined .and a.affirmed b.affirmed
  | joined .or a b => joined .or a.affirmed b.affirmed
  | joined .nand a b => joined .and a.denied b.denied
  | joined .nor a b => joined .or a.denied b.denied

/-- What the tree denies, with neither `nand` nor `nor`. -/
def denied : Expression → Expression
  | comparison s r l => comparison s r.complement l
  | joined .and a b => joined .or a.denied b.denied
  | joined .or a b => joined .and a.denied b.denied
  | joined .nand a b => joined .or a.affirmed b.affirmed
  | joined .nor a b => joined .and a.affirmed b.affirmed

end

theorem height_polar (e : Expression) :
    e.affirmed.height = e.height ∧ e.denied.height = e.height := by
  induction e with
  | comparison => exact ⟨rfl, rfl⟩
  | joined c a b iha ihb =>
    cases c <;> simp only [affirmed, denied, height, iha, ihb, and_self]

end Expression

namespace Predicate

open Fallible

/-- A negation can be taken down past a connector. What is left out of the one is left out of the
other, so failures are the same too. -/
theorem eval_not_and (engine : RegexEngine) (p q : Predicate) (record : Json) :
    (not (and p q)).eval engine record = (or (not p) (not q)).eval engine record := by
  simp only [eval]
  cases p.eval engine record with
  | error x => rfl
  | ok t =>
    cases t <;> cases q.eval engine record <;> first | rfl | exact congrArg _ (Truth.not_and ..)

theorem eval_not_or (engine : RegexEngine) (p q : Predicate) (record : Json) :
    (not (or p q)).eval engine record = (and (not p) (not q)).eval engine record := by
  simp only [eval]
  cases p.eval engine record with
  | error x => rfl
  | ok t =>
    cases t <;> cases q.eval engine record <;> first | rfl | exact congrArg _ (Truth.not_or ..)

theorem eval_not_not (engine : RegexEngine) (p : Predicate) (record : Json) :
    (not (not p)).eval engine record = p.eval engine record := by
  simp only [eval]
  cases p.eval engine record with
  | error x => rfl
  | ok t => exact congrArg Except.ok t.not_not

/-- Of every record of a kind `affirmed` is worth the same as `p`, and `denied` the opposite. -/
structure Polar (kind : Json → Prop) (p affirmed denied : Predicate) : Prop where
  same : ∀ engine record, kind record → affirmed.eval engine record = p.eval engine record
  opposed : ∀ engine record, kind record →
    denied.eval engine record = (Predicate.not p).eval engine record

namespace Polar

variable {kind : Json → Prop} {p q pos neg pos' neg' : Predicate}

theorem not (h : Polar kind p pos neg) : Polar kind (.not p) neg pos where
  same := h.opposed
  opposed engine record of_kind :=
    (h.same engine record of_kind).trans (eval_not_not engine p record).symm

theorem and (h : Polar kind p pos neg) (h' : Polar kind q pos' neg') :
    Polar kind (.and p q) (.and pos pos') (.or neg neg') where
  same engine record of_kind := by
    rw [eval, eval, h.same engine record of_kind, h'.same engine record of_kind]
  opposed engine record of_kind := by
    rw [eval_not_and, eval, eval, h.opposed engine record of_kind, h'.opposed engine record of_kind]

theorem or (h : Polar kind p pos neg) (h' : Polar kind q pos' neg') :
    Polar kind (.or p q) (.or pos pos') (.and neg neg') where
  same engine record of_kind := by
    rw [eval, eval, h.same engine record of_kind, h'.same engine record of_kind]
  opposed engine record of_kind := by
    rw [eval_not_or, eval, eval, h.opposed engine record of_kind, h'.opposed engine record of_kind]

end Polar

variable {scope : Scope} {e : Expression}

/-- The complement of a comparison compiles to the opposite of its leaf. -/
theorem compile_complement {c : Comparison} {leaf : Predicate} (h : c.compile scope = .ok leaf) :
    c.complement.compile scope = .ok leaf.opposite := by
  obtain ⟨path, resolved, made⟩ := leafOf_compile h
  exact compile_of_leafOf (c := c.complement) resolved made.opposite

/-- A comparison compiles just when its complement does: whether it can be asked does not hang on
which of the two it is. -/
theorem compile_complement_ok_iff {c : Comparison} :
    (∃ leaf, c.complement.compile scope = .ok leaf) ↔ ∃ leaf, c.compile scope = .ok leaf := by
  constructor
  · rintro ⟨leaf, h⟩
    have back := compile_complement h
    have involution : c.complement.complement = c := by
      simp [Comparison.complement, Relation.complement_complement]
    rw [involution] at back
    exact ⟨_, back⟩
  · rintro ⟨leaf, h⟩
    exact ⟨_, compile_complement h⟩

theorem ofTree_joined_ok_iff {c : Connector} {a b : Expression} :
    (∃ p, ofTree scope (.joined c a b) = .ok p) ↔
      (∃ p, ofTree scope a = .ok p) ∧ ∃ q, ofTree scope b = .ok q := by
  simp only [ofTree_ok_iff, Expression.comparisons, List.mem_append, or_imp, forall_and]

theorem ofTree_polar_ok_iff (scope : Scope) (e : Expression) :
    ((∃ q, ofTree scope e.affirmed = .ok q) ↔ ∃ p, ofTree scope e = .ok p) ∧
      ((∃ q, ofTree scope e.denied = .ok q) ↔ ∃ p, ofTree scope e = .ok p) := by
  induction e with
  | comparison s r l => exact ⟨Iff.rfl, @compile_complement_ok_iff scope ⟨s, r, l⟩⟩
  | joined c a b iha ihb =>
    cases c <;>
      simp only [Expression.affirmed, Expression.denied, ofTree_joined_ok_iff, iha, ihb, and_self]

/-- If its leaves have opposites, so has the predicate of a tree. -/
theorem ofTree_polar {kind : Json → Prop}
    (leaves : ∀ c ∈ e.comparisons, ∀ leaf, c.compile scope = .ok leaf →
      Polar kind leaf leaf leaf.opposite)
    {p : Predicate} (compiled : ofTree scope e = .ok p) :
    ∃ q q', ofTree scope e.affirmed = .ok q ∧ ofTree scope e.denied = .ok q' ∧ Polar kind p q q' := by
  induction e generalizing p with
  | comparison s r l =>
    have opposite := @compile_complement scope ⟨s, r, l⟩ p compiled
    exact ⟨p, p.opposite, compiled, opposite, leaves _ (List.mem_singleton_self _) p compiled⟩
  | joined c a b iha ihb =>
    obtain ⟨p, hp, compiled⟩ := bind_eq_ok.mp compiled
    obtain ⟨q, hq, compiled⟩ := bind_eq_ok.mp compiled
    cases compiled
    obtain ⟨pos, neg, hpos, hneg, left⟩ := iha (fun d hd => leaves d (List.mem_append_left _ hd)) hp
    obtain ⟨pos', neg', hpos', hneg', right⟩ :=
      ihb (fun d hd => leaves d (List.mem_append_right _ hd)) hq
    -- The operands of `nand` and `nor` are negated first, which swaps what affirms and denies them.
    cases c with
    | and => exact ⟨_, _, ofTree_joined hpos hpos', ofTree_joined hneg hneg', left.and right⟩
    | or => exact ⟨_, _, ofTree_joined hpos hpos', ofTree_joined hneg hneg', left.or right⟩
    | nand => exact ⟨_, _, ofTree_joined hneg hneg', ofTree_joined hpos hpos', left.not.and right.not⟩
    | nor => exact ⟨_, _, ofTree_joined hneg hneg', ofTree_joined hpos hpos', left.not.or right.not⟩

/-- A leaf whose path runs through no collection is worth the opposite of its complement. -/
theorem polar_of_compile {c : Comparison} (single : c.isSingle scope = true) {leaf : Predicate}
    (compiled : c.compile scope = .ok leaf) : Polar Json.Finite leaf leaf leaf.opposite where
  same _ _ _ := rfl
  opposed engine record finite := by
    obtain ⟨path, resolved, made⟩ := leafOf_compile compiled
    have direct : path.hasCollectionHop = false ∧
        (c.relation.isOrdering = true → path.isCollectionValued = false) := by
      simpa [Comparison.isSingle, resolved, imp_iff_not_or] using single
    exact made.eval_opposite direct.1 direct.2 finite

/-- A tree whose selectors lead through no collections, and to none where an order is asked for,
compiles exactly if it does with the negations taken down to its comparisons, and both predicates
are worth the same of every record with finite numbers, or fail for the same reason. -/
theorem ofExpression_affirmed (single : ∀ c ∈ e.comparisons, c.isSingle scope = true) :
    ((∃ p, ofExpression scope e = .ok p) ↔ ∃ q, ofExpression scope e.affirmed = .ok q) ∧
      ∀ p q, ofExpression scope e = .ok p → ofExpression scope e.affirmed = .ok q →
        ∀ engine record, record.Finite → p.eval engine record = q.eval engine record := by
  constructor
  · simp only [ofExpression_eq_ok, e.height_polar.1, exists_and_left, (ofTree_polar_ok_iff scope e).1]
  · intro p q compiled compiled' engine record finite
    obtain ⟨r, _, affirmed, _, polar⟩ := ofTree_polar
      (fun c mem _ => polar_of_compile (single c mem)) (ofTree_of_ofExpression compiled)
    rw [ofTree_of_ofExpression compiled'] at affirmed
    cases affirmed
    exact (polar.same engine record finite).symm

theorem clinic_kitten_finite : Clinic.kitten.Finite := by
  refine .object fun f hf => ?_
  simp only [List.mem_cons, List.not_mem_nil, or_false] at hf
  rcases hf with rfl | rfl | rfl
  · exact .integer 1
  · exact .string "Max"
  · refine .array fun v hv => ?_
    rw [List.mem_singleton.mp hv]
    exact .integer 3

/-- What the negations are taken down to is another predicate. -/
theorem ofExpression_affirmed_of_clinic :
    (∀ c ∈ Clinic.kittens.comparisons, c.isSingle Clinic.petScope = true) ∧ Clinic.kitten.Finite ∧
      ∃ p q, ofExpression Clinic.petScope Clinic.kittens = .ok p ∧
        ofExpression Clinic.petScope Clinic.kittens.affirmed = .ok q ∧
        p ≠ q ∧ p.eval .standard Clinic.kitten = q.eval .standard Clinic.kitten := by
  have single : ∀ c ∈ Clinic.kittens.comparisons, c.isSingle Clinic.petScope = true := by
    decide +kernel
  have compiled : ofExpression Clinic.petScope Clinic.kittens = .ok Clinic.kittensPredicate := by
    decide +kernel
  obtain ⟨compiles, evals⟩ := ofExpression_affirmed single
  obtain ⟨q, affirmed⟩ := compiles.mp ⟨_, compiled⟩
  refine ⟨single, clinic_kitten_finite, _, q, compiled, affirmed, ?_,
    evals _ q compiled affirmed _ _ clinic_kitten_finite⟩
  rintro rfl
  revert affirmed
  decide +kernel

end Predicate

end EntityFilter

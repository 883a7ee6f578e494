import EntityFilter.Proofs.Clinic
import EntityFilter.Proofs.Disclosure
import EntityFilter.Proofs.Replacement

namespace EntityFilter

namespace Policy

/-- Allows the selectors as they are, and compares text as before. -/
def direct (p : Policy) (selectors : List String) : Policy :=
  ⟨(ofSelectors selectors).allowed, .empty, p.alwaysWildcard⟩

theorem isAllowed_allow (p : Policy) (selector other : String) :
    (p.allow selector).isAllowed other = true ↔ other = selector ∨ p.isAllowed other = true := by
  simp only [isAllowed, allow, Table.contains, Table.get?_insert]
  split
  · rename_i same
    simp [same]
  · rename_i differs
    simp [differs]

theorem isAllowed_foldl_allow (p : Policy) (selectors : List String) (selector : String) :
    (selectors.foldl allow p).isAllowed selector = true ↔
      p.isAllowed selector = true ∨ selector ∈ selectors := by
  induction selectors generalizing p with
  | nil => simp
  | cons s selectors ih =>
    rw [List.foldl_cons, ih, isAllowed_allow, List.mem_cons]
    tauto

theorem isAllowed_direct (p : Policy) {selectors : List String} {selector : String} :
    (p.direct selectors).isAllowed selector = true ↔ selector ∈ selectors := by
  have folded := isAllowed_foldl_allow empty selectors selector
  have none : ¬ empty.isAllowed selector = true := by
    simp [isAllowed, empty, Table.contains, Table.get?, Table.empty]
  exact folded.trans (or_iff_right none)

theorem mapSelector_direct (p : Policy) (selectors : List String) (selector : String) :
    (p.direct selectors).mapSelector selector = selector := rfl

end Policy

/-- The comparison under the name that its selector stands for. -/
def Comparison.mapped (p : Policy) (c : Comparison) : Comparison :=
  { c with selector := p.mapSelector c.selector }

namespace Expression

/-- Every selector replaced by what it stands for, once: what a selector stands for is never taken
for a selector again. -/
def mapped (p : Policy) (e : Expression) : Expression := e.replace (Comparison.mapped p)

theorem selectors_mapped (p : Policy) (e : Expression) :
    (e.mapped p).selectors = e.selectors.map p.mapSelector := by
  simp only [selectors_eq_leaves, leaves_eq_map, mapped, comparisons_replace, List.map_map]
  rfl

theorem selector_mem {e : Expression} {c : Comparison} (h : c ∈ e.comparisons) :
    c.selector ∈ e.selectors := by
  rw [selectors_eq_leaves, leaves_eq_map]
  exact List.mem_map_of_mem h

end Expression

/-- Allows exactly what the selectors of a tree stand for, and has no aliases. -/
def Scope.direct (scope : Scope) (e : Expression) : Scope :=
  { scope with policy := scope.policy.direct (e.mapped scope.policy).selectors }

theorem Path.resolve_direct {graph : AttributeGraph} {root selector : String} {policy direct : Policy}
    {path : Path} (allowed : policy.isAllowed selector = true)
    (mapped : direct.isAllowed (policy.mapSelector selector) = true)
    (plain : direct.mapSelector (policy.mapSelector selector) = policy.mapSelector selector) :
    resolve graph root policy selector = .ok path ↔
      resolve graph root direct (policy.mapSelector selector) = .ok path := by
  rw [resolve_eq_ok, resolve_eq_ok, allowed, mapped, plain]

namespace Predicate

section

variable {scope : Scope} {e : Expression}

/-- What an allowed selector stands for is allowed in the scope without aliases and compiles there
to the same leaf. -/
theorem compile_direct {c : Comparison} (mem : c ∈ e.comparisons)
    (allowed : scope.policy.isAllowed c.selector = true) (leaf : Predicate) :
    c.compile scope = .ok leaf ↔
      (c.mapped scope.policy).compile (scope.direct e) = .ok leaf := by
  have among : scope.policy.mapSelector c.selector ∈ (e.mapped scope.policy).selectors := by
    rw [Expression.selectors_mapped]
    exact List.mem_map_of_mem (Expression.selector_mem mem)
  rw [compile_eq_ok, compile_eq_ok]
  refine exists_congr fun path => and_congr ?_ ⟨LeafOf.congr rfl, LeafOf.congr rfl⟩
  exact Path.resolve_direct allowed ((Policy.isAllowed_direct _).mpr among)
    (Policy.mapSelector_direct _ _ _)

/-- A filter compiles to what it would without aliases if every selector were written as what it
stands for and allowed as such. -/
theorem ofExpression_direct (allowed : ∀ s ∈ e.selectors, scope.policy.isAllowed s = true)
    {p : Predicate} :
    ofExpression scope e = .ok p ↔
      ofExpression (scope.direct e) (e.mapped scope.policy) = .ok p := by
  refine ofExpression_replace_iff fun c hc leaf => ?_
  exact compile_direct hc (allowed _ (Expression.selector_mem hc)) leaf

end

/-- Of a policy only what it says of the selectors as they are written is ever asked. -/
theorem ofExpression_congr {scope : Scope} {policy : Policy} {e : Expression}
    (wildcard : policy.alwaysWildcard = scope.policy.alwaysWildcard)
    (written : ∀ s ∈ e.selectors, policy.isAllowed s = scope.policy.isAllowed s ∧
      policy.mapSelector s = scope.policy.mapSelector s) :
    ofExpression { scope with policy := policy } e = ofExpression scope e := by
  have same : ofTree { scope with policy := policy } e = ofTree scope e := by
    refine ofTree_congr fun c hc => ofComparison_congr wildcard ?_
    obtain ⟨allowed, mapped⟩ := written _ (Expression.selector_mem hc)
    simp only [Path.resolve, allowed, mapped]
  rw [ofExpression, ofExpression, same]

/-- A tree compiles exactly if its selectors are allowed and it compiles, to the same predicate,
with what they stand for in their places and no aliases. What they stand for is neither looked up
among the aliases nor asked of the allow-list: a policy that differs only there gives the same
result. -/
theorem ofExpression_without_aliases (scope : Scope) (e : Expression) :
    (∀ p, ofExpression scope e = .ok p ↔
      (∀ s ∈ e.selectors, scope.policy.isAllowed s = true) ∧
        ofExpression (scope.direct e) (e.mapped scope.policy) = .ok p) ∧
    ∀ policy : Policy, policy.alwaysWildcard = scope.policy.alwaysWildcard →
      (∀ s ∈ e.selectors, policy.isAllowed s = scope.policy.isAllowed s ∧
        policy.mapSelector s = scope.policy.mapSelector s) →
      ofExpression { scope with policy := policy } e = ofExpression scope e := by
  refine ⟨fun p => ⟨fun compiled => ?_, fun ⟨allowed, compiled⟩ => ?_⟩, fun _ => ofExpression_congr⟩
  · have allowed : ∀ s ∈ e.selectors, scope.policy.isAllowed s = true := by
      rw [Expression.selectors_eq_leaves]
      exact allowed_of_ofExpression compiled
    exact ⟨allowed, (ofExpression_direct allowed).mp compiled⟩
  · exact (ofExpression_direct allowed).mpr compiled

/-- What the town stands for is another name of something else, which counts for neither. -/
theorem ofExpression_without_aliases_of_clinic :
    ofExpression Clinic.renamed Clinic.residents = .ok Clinic.residentsPredicate ∧
      ofExpression (Clinic.renamed.direct Clinic.residents)
        (Clinic.residents.mapped Clinic.renamed.policy) = .ok Clinic.residentsPredicate ∧
      ofExpression { Clinic.renamed with policy := Clinic.policy } Clinic.residents =
        ofExpression Clinic.renamed Clinic.residents := by
  have selectors : Clinic.residents.selectors = ["pets.age", "pets.weights", "town"] := by cbv
  have allowed : ∀ s ∈ Clinic.residents.selectors, Clinic.renamed.policy.isAllowed s = true := by
    rw [selectors]
    decide +kernel
  have written : ∀ s ∈ Clinic.residents.selectors,
      Clinic.policy.isAllowed s = Clinic.renamed.policy.isAllowed s ∧
        Clinic.policy.mapSelector s = Clinic.renamed.policy.mapSelector s := by
    rw [selectors]
    decide +kernel
  have direct : ofExpression (Clinic.renamed.direct Clinic.residents)
      (Clinic.residents.mapped Clinic.renamed.policy) = .ok Clinic.residentsPredicate := by
    decide +kernel
  obtain ⟨compiles, blind⟩ := ofExpression_without_aliases Clinic.renamed Clinic.residents
  exact ⟨(compiles _).mpr ⟨allowed, direct⟩, direct, blind Clinic.policy rfl written⟩

end Predicate

end EntityFilter

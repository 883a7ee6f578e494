import EntityFilter.Proofs.Clinic
import EntityFilter.Proofs.Leaves
import EntityFilter.Proofs.Walks

namespace EntityFilter

/-- The comparison as a whole filter. -/
def Comparison.alone (c : Comparison) : Expression := .comparison c.selector c.relation c.argument

namespace Predicate

open Fallible

theorem leafCount_eq (p : Predicate) : p.leafCount = p.paths.length := by
  induction p with
  | and p q ihp ihq | or p q ihp ihq => simp [leafCount, paths, ihp, ihq]
  | not p ih => exact ih
  | compare | like | contains | size => rfl

variable {scope : Scope} {e : Expression}

theorem ofExpression_of_shallow (shallow : e.height ≤ maxDepth) :
    ofExpression scope e = ofTree scope e := by
  rw [ofExpression, Expression.depth_eq_height]
  exact if_neg (Nat.not_lt.mpr shallow)

/-- Of a tree that is too deep no comparison is looked at. -/
theorem ofExpression_of_deep (deep : maxDepth < e.height) :
    ofExpression scope e = .error (.tooDeep e.height) := by
  rw [ofExpression, Expression.depth_eq_height]
  exact if_pos deep

theorem ofExpression_eq_ok {p : Predicate} :
    ofExpression scope e = .ok p ↔ e.height ≤ maxDepth ∧ ofTree scope e = .ok p := by
  by_cases shallow : e.height ≤ maxDepth
  · rw [ofExpression_of_shallow shallow]
    exact (and_iff_right shallow).symm
  · rw [ofExpression_of_deep (not_le.mp shallow)]
    exact iff_of_false nofun fun h => shallow h.1

theorem ofExpression_alone (c : Comparison) : ofExpression scope c.alone = c.compile scope :=
  ofExpression_of_shallow (by decide : 1 ≤ maxDepth)

/-- A tree fails as the leftmost of its comparisons that does. -/
theorem ofTree_eq_error {x : FilterError} :
    ofTree scope e = .error x ↔ e.comparisons.mapM (Comparison.compile scope) = .error x := by
  rw [← map_leaves_ofTree]
  exact map_eq_error.symm

/-- A tree compiles if each of its comparisons does. -/
theorem ofTree_ok_iff :
    (∃ p, ofTree scope e = .ok p) ↔ ∀ c ∈ e.comparisons, ∃ p, c.compile scope = .ok p := by
  rw [← mapM_ok_iff, ← map_leaves_ofTree]
  cases ofTree scope e with
  | ok p => exact iff_of_true ⟨p, rfl⟩ ⟨p.leaves, rfl⟩
  | error x => exact iff_of_false (by simp) (by simp [Except.map])

/-- The paths of a predicate are what the selectors lead to, one for each and all of them allowed.
-/
theorem paths_of_ofTree {p : Predicate} (h : ofTree scope e = .ok p) :
    List.Forall₂ (fun s path => s ∈ scope.policy.allowed.names ∧
      Path.resolve scope.graph scope.root scope.policy s = .ok path) e.selectors p.paths := by
  have resolved := mapM_ok_forall₂ (mapM_resolve_leaves h)
  rw [Expression.selectors_eq_leaves]
  apply resolved.imp
  intro s path found
  have allowed := (Path.resolve_eq_ok.mp found).1
  exact ⟨Policy.isAllowed_iff.mp allowed, found⟩

/-- A tree that is not too deep compiles exactly if each comparison does alone, with the paths of
its selectors in their order, or fails as the leftmost comparison that fails alone; one that is too
deep fails for its depth. -/
theorem ofExpression_all_or_nothing (scope : Scope) (e : Expression) :
    (e.depth = e.height ∧ e.selectors = e.comparisons.map (·.selector)) ∧
    (e.height ≤ maxDepth →
      ((∃ p, ofExpression scope e = .ok p) ↔
        ∀ c ∈ e.comparisons, ∃ p, ofExpression scope c.alone = .ok p) ∧
      (∀ p, ofExpression scope e = .ok p →
        p.leafCount = e.selectors.length ∧ p.paths.length = e.selectors.length ∧
          List.Forall₂ (fun s path => s ∈ scope.policy.allowed.names ∧
            Path.resolve scope.graph scope.root scope.policy s = .ok path) e.selectors p.paths) ∧
      ∀ x, ofExpression scope e = .error x ↔
        ∃ before c after, e.comparisons = before ++ c :: after ∧
          (∀ b ∈ before, ∃ p, ofExpression scope b.alone = .ok p) ∧
          ofExpression scope c.alone = .error x) ∧
    (maxDepth < e.height → ofExpression scope e = .error (.tooDeep e.height)) := by
  refine ⟨⟨e.depth_eq_height, ?_⟩, ?_, ofExpression_of_deep⟩
  · rw [Expression.selectors_eq_leaves, Expression.leaves_eq_map]
  · intro shallow
    simp only [ofExpression_of_shallow shallow, ofExpression_alone]
    refine ⟨ofTree_ok_iff, ?_, ?_⟩
    · intro p compiled
      have paths := paths_of_ofTree compiled
      have count := paths.length_eq
      exact ⟨by rw [leafCount_eq, count], count.symm, paths⟩
    · intro x
      rw [ofTree_eq_error, mapM_eq_error]

/-- Of two comparisons that cannot be compiled the left one counts, and a tower of 512 joins has a
level too many. -/
theorem ofExpression_all_or_nothing_of_clinic :
    (Clinic.residents.height ≤ maxDepth ∧
      ∃ p, ofExpression Clinic.scope Clinic.residents = .ok p ∧ p.leafCount = 3) ∧
    (Clinic.strangers.height ≤ maxDepth ∧
      ofExpression Clinic.scope Clinic.strangers = .error (.resolution (.notAllowed "phone"))) ∧
    (maxDepth < (Clinic.tower maxDepth).height ∧
      ofExpression Clinic.scope (Clinic.tower maxDepth) = .error (.tooDeep 513)) := by
  have each : ∀ c ∈ Clinic.residents.comparisons,
      ∃ p, ofExpression Clinic.scope c.alone = .ok p := by
    intro c hc
    simp only [Clinic.residents, Clinic.newcomers, Expression.comparisons, List.cons_append,
      List.nil_append, List.mem_cons, List.not_mem_nil, or_false] at hc
    rcases hc with rfl | rfl | rfl
    · exact ⟨.compare Clinic.age .ge (.integer 2), by cbv⟩
    · exact ⟨.size Clinic.weights .gt (.integer 1), by cbv⟩
    · exact ⟨.compare ⟨[], ⟨"city", .string, .single⟩⟩ .eq (.string "St. John's"), by decide +kernel⟩
  refine ⟨?_, ?_, ?_⟩
  · have shallow : Clinic.residents.height ≤ maxDepth := by decide +kernel
    obtain ⟨compiles, paths, _⟩ :=
      (ofExpression_all_or_nothing Clinic.scope Clinic.residents).2.1 shallow
    obtain ⟨p, compiled⟩ := compiles.mpr each
    have count : Clinic.residents.selectors.length = 3 := by cbv
    exact ⟨shallow, p, compiled, (paths p compiled).1.trans count⟩
  · have shallow : Clinic.strangers.height ≤ maxDepth := by decide +kernel
    obtain ⟨_, _, fails⟩ := (ofExpression_all_or_nothing Clinic.scope Clinic.strangers).2.1 shallow
    refine ⟨shallow, (fails _).mpr ⟨Clinic.newcomers.comparisons, ⟨"phone", .eq, .ofBare "1"⟩,
      [⟨"pets.age", .eq, .ofBare "old"⟩], rfl, ?_, by cbv⟩⟩
    intro b hb
    exact each b (List.mem_append_left _ hb)
  · have height : (Clinic.tower maxDepth).height = 513 := by decide +kernel
    have deep : maxDepth < (Clinic.tower maxDepth).height := by
      rw [height]
      decide
    have fails := (ofExpression_all_or_nothing Clinic.scope (Clinic.tower maxDepth)).2.2 deep
    rw [height] at fails
    exact ⟨deep, fails⟩

end Predicate

end EntityFilter

import EntityFilter.Proofs.Clinic
import EntityFilter.Proofs.Leaves
import EntityFilter.Proofs.Pruning

namespace EntityFilter

open Json

/-- The paths that the allowed selectors stand for, as names. -/
def Policy.allowedPaths (p : Policy) : List (List String) :=
  p.allowed.names.map fun s => Path.segmentNames (p.mapSelector s)

namespace Predicate

open Fallible

/-- Results that are the same but for the text of what was found where a record is invalid. -/
inductive Alike : Outcome → Outcome → Prop where
  | same (o : Outcome) : Alike o o
  | invalid (path expected found found' : String) :
    Alike (.error (.invalidField path expected found)) (.error (.invalidField path expected found'))

theorem alike_of_masked_eq {o o' : Outcome} (h : masked o = masked o') : Alike o o' := by
  cases o with
  | ok t =>
    cases o' with
    | ok t' =>
      cases h
      exact .same _
    | error x' => cases h
  | error x =>
    cases o' with
    | ok t' => cases h
    | error x' =>
      simp only [masked_error, Except.error.injEq] at h
      cases x <;> cases x' <;> cases h
      · exact .same _
      · exact .same _
      · exact .invalid ..
      · exact .same _

/-- A compiled predicate follows no path but those that the allow-list stands for. -/
theorem covers_of_compiled {schema : Schema} {root : String} {policy : Policy} {e : Expression}
    {p : Predicate} (compiled : ofExpression ⟨schema.graph, root, policy⟩ e = .ok p) :
    ∀ path ∈ p.paths, Covers policy.allowedPaths (path.segments.map (·.name)) := by
  intro path hp
  obtain ⟨s, _, resolved⟩ :=
    mapM_ok_mem (mapM_resolve_leaves (ofTree_of_ofExpression compiled)) path hp
  obtain ⟨allowed, _, leads⟩ := Path.resolve_eq_ok.mp resolved
  have names : path.segments.map (·.name) = Path.segmentNames (policy.mapSelector s) :=
    leads.names_eq
  refine ⟨Path.segmentNames (policy.mapSelector s), ?_, names ▸ List.prefix_rfl⟩
  exact List.mem_map.mpr ⟨s, Policy.isAllowed_iff.mp allowed, rfl⟩

/-- A record evaluates as what the allowed paths leave of it, and records of which they leave the
same evaluate alike. -/
theorem eval_alike_prune {engine : RegexEngine} {schema : Schema} {root : String} {policy : Policy}
    {e : Expression} {p : Predicate} (compiled : ofExpression ⟨schema.graph, root, policy⟩ e = .ok p)
    (record : Json) :
    Alike (p.eval engine record) (p.eval engine (record.prune policy.allowedPaths)) ∧
      ∀ other : Json, record.prune policy.allowedPaths = other.prune policy.allowedPaths →
        Alike (p.eval engine record) (p.eval engine other) := by
  have masked := @masked_eval_prune _ engine _ (covers_of_compiled compiled)
  refine ⟨alike_of_masked_eq (masked record).symm, fun other same => alike_of_masked_eq ?_⟩
  rw [← masked record, ← masked other, same]

/-- Neither the owner's phone nor a pet's name is on a path of the policy. -/
theorem eval_alike_prune_of_clinic :
    ofExpression Clinic.scope Clinic.newcomers = .ok Clinic.newcomersPredicate ∧
      Alike
        (Clinic.newcomersPredicate.eval .standard (.object [("phone", .string "1"),
          ("pets", .array [.object [("age", .string "?"), ("name", .string "Max")]])]))
        (Clinic.newcomersPredicate.eval .standard (.object [("phone", .string "2"),
          ("pets", .array [.object [("age", .string "?"), ("name", .null)]])])) := by
  have compiled : ofExpression Clinic.scope Clinic.newcomers =
      .ok Clinic.newcomersPredicate := by cbv
  exact ⟨compiled, (eval_alike_prune compiled _).2 _ (by cbv)⟩

end Predicate

end EntityFilter

import Mathlib
import EntityFilter.Filter.Evaluation
import EntityFilter.Proofs.Globs

namespace EntityFilter

namespace RegexEngine

theorem foldl_charge_runs (n m : Nat) :
    ((List.replicate n LikeItem.run).flatMap LikeItem.regex).foldl charge (false, m) =
      (false, m + 456 * n) := by
  induction n generalizing m with
  | zero => rfl
  | succ n ih =>
    have one : LikeItem.run.regex.foldl charge (false, m) = (false, m + 456) := rfl
    rw [List.replicate_succ, List.flatMap_cons, List.foldl_append, one, ih]
    congr 1
    omega

/-- The two anchors take a state each. -/
theorem estimate_runs {p : LikePattern} {n : Nat} (runs : p.items = List.replicate n .run) :
    estimate p.regexSource = 64 + 456 * n := by
  rw [estimate, LikePattern.regexSource, runs, String.toList_ofList, List.cons_append, List.foldl_cons,
    List.foldl_append]
  have first : charge (false, 0) '^' = (false, 32) := rfl
  rw [first, foldl_charge_runs]
  show 32 + 456 * n + 32 = _
  omega

/-- So many runs in a row are too much. -/
theorem standard_refuses {p : LikePattern} {n : Nat} (runs : p.items = List.replicate n .run)
    (many : 23000 ≤ n) : ∃ reason, standard.refusal? p.regexSource = some reason := by
  have large : ¬ estimate p.regexSource ≤ sizeLimit := by
    rw [estimate_runs runs, sizeLimit]
    omega
  simp only [standard, if_neg large]
  exact ⟨_, rfl⟩

end RegexEngine

/-- A literal of so many stars and nothing else, which describes any text. -/
def Literal.stars (n : Nat) : Literal := .ofQuoted (String.ofList (List.replicate n '*'))

theorem Literal.verbatim_stars (n : Nat) : (stars n).verbatim.toList = List.replicate n '*' := by
  simp [stars, verbatim, suffixText, ofQuoted]

theorem LikePattern.ofLiteral?_stars {n : Nat} (nonzero : n ≠ 0) :
    ofLiteral? (.stars n) false = some (.ofGlob (List.replicate n '*')) := by
  have wild : (Literal.stars n).hasWildcard = true := by
    simp [Literal.hasWildcard, Literal.stars, Literal.ofQuoted, nonzero]
  simp [ofLiteral?, wild, Literal.verbatim_stars]

/-- More stars than the engine has room for are refused, whatever the record. -/
theorem Predicate.eval_stars (n : Nat) (many : 23000 ≤ n) (path : Path) (negated : Bool)
    (record : Json) :
    ∃ x, (like path (.ofGlob (List.replicate n '*')) negated).eval .standard record = .error x := by
  have runs : (LikePattern.ofGlob (List.replicate n '*')).items = List.replicate n .run := by
    rw [LikePattern.items_ofGlob, List.map_replicate]
    rfl
  obtain ⟨reason, refused⟩ := RegexEngine.standard_refuses runs many
  have fails := LikePattern.compile_eq_error.mpr ⟨reason, refused, rfl⟩
  exact ⟨_, by rw [eval, fails]; rfl⟩

end EntityFilter

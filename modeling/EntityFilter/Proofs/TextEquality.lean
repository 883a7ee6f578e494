import EntityFilter.Proofs.AllOrNothing
import EntityFilter.Proofs.Clinic
import EntityFilter.Proofs.Globs
import EntityFilter.Proofs.RegularExpressions

namespace EntityFilter

theorem Literal.hasWildcard_iff {l : Literal} : l.hasWildcard = true ↔ '*' ∈ l.verbatim.toList := by
  have plain : '*' ∉ l.suffixText := by
    cases h : l.suffix with
    | none => simp [suffixText, h]
    | some s => cases s <;> simp [suffixText, h, Suffix.char]
  simp [hasWildcard, verbatim, plain]

/-- An attribute of the record itself reaches what stands there. -/
theorem Record.values_of_field {a : Attribute} {record stored : Json} (single : a.isCollection = false)
    (field : record.get? a.name = some stored) (present : stored.isNull = false) :
    values record ⟨[], a⟩ = .ok [some stored] := by
  have found : (some record).bind (field? a.name) = some stored := by simp [field?, field, present]
  simp [values, parents, followAll, targetValues, Path.isCollectionValued, single, found, pure,
    Except.pure, bind, Except.bind]

namespace Predicate

open Fallible Record

section

variable {engine : RegexEngine} {a : Attribute} {record : Json} {v : String} (text : a.type = .string)
  (single : a.isCollection = false) (field : record.get? a.name = some (.string v))

include text single field

/-- Of a text that stands in the record itself a test sees the whole. -/
theorem someValue_text (test : Value → Except ExecutionError Bool) :
    someValue record ⟨[], a⟩ test = (test (.string v)).map Truth.ofBool := by
  have stored := values_of_field single field rfl
  have value : valueOf? a.type (.string v) = some (.string v) := by rw [text]; rfl
  simp only [someValue, stored, bind, Except.bind, any_singleton, testStored, Record.read, value]

/-- A literal without stars asks for one text. -/
theorem eval_compare_text (literal : String) :
    eval engine record (.compare ⟨[], a⟩ .eq (.string literal)) =
      .ok (.ofBool (decide (v = literal))) := by
  have equal : (Ord.compare v literal == Ordering.eq) = decide (v = literal) := by
    rw [Bool.eq_iff_iff, beq_iff_eq, decide_eq_true_iff, Std.compare_eq_iff_eq]
  rw [eval, evalCompare, someValue_text text single field]
  exact congrArg (fun b => Except.ok (Truth.ofBool b)) equal

/-- A pattern that is not refused asks for the texts that it matches. -/
theorem eval_like_text {pattern : LikePattern}
    (compiles : ∀ x, ¬ (like ⟨[], a⟩ pattern false).Refused engine x) :
    eval engine record (.like ⟨[], a⟩ pattern false) =
      .ok (.ofBool (LikeItem.matchesAll pattern.items v.toList)) := by
  rw [eval]
  cases made : pattern.compile engine with
  | error x => exact absurd ⟨_, _, _, List.mem_singleton_self _, made⟩ (compiles x)
  | ok items =>
    rw [(LikePattern.compile_eq_ok.mp made).2]
    simp only [bind, Except.bind, evalLike, someValue_text text single field]
    rfl

end

theorem decides_of_eq {o : Outcome} {b : Bool} {asked : Prop} (h : o = .ok (.ofBool b))
    (decides : b = true ↔ asked) : (o = .ok .true ↔ asked) ∧ (¬ asked → o = .ok .false) := by
  rw [h, ← decides]
  cases b <;> simp [Truth.ofBool]

/-- An attribute of the record itself that is text, compared for equality with a literal, is true of
just the texts that the literal describes and false of all others: as a value where nothing in the
literal is special, else as a pattern, which as a regular expression is found in the same texts. The
engine is only relied on to compile the pattern, if there is one; if it refuses that, nothing is
compared. -/
theorem eval_text_equality {engine : RegexEngine} {scope : Scope} {selector : String} {a : Attribute}
    (resolved : Path.resolve scope.graph scope.root scope.policy selector = .ok ⟨[], a⟩)
    (text : a.type = .string) (single : a.isCollection = false)
    (exact : scope.policy.alwaysWildcard = false) (l : Literal) {record : Json} {v : String}
    (field : record.get? a.name = some (.string v)) :
    ∃ p, ofExpression scope (.comparison selector .eq l) = .ok p ∧
      ((∀ x, ¬ p.Refused engine x) →
        (p.eval engine record = .ok .true ↔ Glob l.verbatim.toList v.toList) ∧
        (¬ Glob l.verbatim.toList v.toList → p.eval engine record = .ok .false)) ∧
      (∀ x, p.Refused engine x → p.eval engine record = .error x) ∧
      (('*' ∉ l.verbatim.toList ∧ p = .compare ⟨[], a⟩ .eq (.string l.verbatim)) ∨
        ∃ pattern, '*' ∈ l.verbatim.toList ∧ p = .like ⟨[], a⟩ pattern false ∧
          ∀ cs, Regex.Finds pattern.regexSource.toList cs ↔ Glob l.verbatim.toList cs) := by
  have alone : ofExpression scope (.comparison selector .eq l) =
      Comparison.compile scope ⟨selector, .eq, l⟩ := ofExpression_alone ⟨selector, .eq, l⟩
  rw [alone]
  by_cases special : '*' ∈ l.verbatim.toList
  · have asked : LikePattern.ofLiteral? l scope.policy.alwaysWildcard =
        some (.ofGlob l.verbatim.toList) := by
      simp [LikePattern.ofLiteral?, exact, Literal.hasWildcard_iff.mpr special]
    have compiled : Comparison.compile scope ⟨selector, .eq, l⟩ =
        .ok (.like ⟨[], a⟩ (.ofGlob l.verbatim.toList) false) :=
      compile_of_leafOf resolved (.like text rfl asked)
    have described : LikeItem.matchesAll (LikePattern.ofGlob l.verbatim.toList).items v.toList = true ↔
        Glob l.verbatim.toList v.toList :=
      LikeItem.matchesAll_iff.trans LikePattern.matches_ofGlob_iff
    refine ⟨_, compiled, fun compiles => ?_, fun x refused => refused.eval_like record,
      .inr ⟨_, special, rfl, fun cs => ?_⟩⟩
    · exact decides_of_eq (eval_like_text text single field compiles) described
    · exact LikePattern.finds_regexSource_iff.trans LikePattern.matches_ofGlob_iff
  · have plain : l.hasWildcard = false := by
      rw [← Bool.not_eq_true, Literal.hasWildcard_iff]
      exact special
    have none : patternFor? scope.policy ⟨[], a⟩ .eq l = none := by
      simp [patternFor?, LikePattern.ofLiteral?, exact, plain]
    have scalar : a.type.isEntity = false := by rw [text]; rfl
    have ordered : Relation.eq.isOrdering = true → a.type.isOrdered = true := by
      intro ordering
      cases ordering
    have value : Value.ofLiteral l a.type = .ok (.string l.verbatim) := by rw [text]; rfl
    have compiled : Comparison.compile scope ⟨selector, .eq, l⟩ =
        .ok (.compare ⟨[], a⟩ .eq (.string l.verbatim)) :=
      compile_of_leafOf resolved (.compare single scalar ordered none value)
    have described : decide (v = l.verbatim) = true ↔ Glob l.verbatim.toList v.toList := by
      rw [Glob.iff_eq_of_not_mem special, decide_eq_true_iff, String.toList_inj]
    refine ⟨_, compiled, fun _ => ?_, fun x refused => ?_, .inl ⟨special, rfl⟩⟩
    · exact decides_of_eq (eval_compare_text text single field _) described
    · obtain ⟨_, _, _, mem, _⟩ := refused
      cases List.mem_singleton.mp mem

/-- What else is special in patterns and expressions is not so in a literal. -/
theorem eval_text_equality_of_clinic :
    Path.resolve Clinic.scope.graph "Owner" Clinic.policy "town" =
        .ok ⟨[], ⟨"city", .string, .single⟩⟩ ∧
      ∃ p, ofExpression Clinic.scope (.comparison "town" .eq (.ofQuoted "*(50%\\_*")) = .ok p ∧
        p.eval .standard (.object [("city", .string "at\n(50%\\_.")]) = .ok .true ∧
        p.eval .standard (.object [("city", .string "at\n(50m\\x.")]) = .ok .false := by
  have resolved : Path.resolve Clinic.scope.graph "Owner" Clinic.policy "town" =
      .ok ⟨[], ⟨"city", .string, .single⟩⟩ := by cbv
  have made : ofExpression Clinic.scope (.comparison "town" .eq (.ofQuoted "*(50%\\_*")) =
      .ok (.like ⟨[], ⟨"city", .string, .single⟩⟩ (.ofGlob "*(50%\\_*".toList) false) := by
    decide +kernel
  have compiles : ∀ x, ¬ (like ⟨[], ⟨"city", .string, .single⟩⟩ (.ofGlob "*(50%\\_*".toList)
      false).Refused .standard x := by
    rintro x ⟨_, _, _, mem, refused⟩
    cases List.mem_singleton.mp mem
    obtain ⟨reason, refused, _⟩ := LikePattern.compile_eq_error.mp refused
    have accepted : RegexEngine.standard.refusal?
        (LikePattern.ofGlob "*(50%\\_*".toList).regexSource = none := by decide +kernel
    rw [accepted] at refused
    cases refused
  obtain ⟨p, compiled, decides, _⟩ := @eval_text_equality .standard Clinic.scope "town" _ resolved
    rfl rfl rfl (.ofQuoted "*(50%\\_*") (.object [("city", .string "at\n(50%\\_.")]) _ rfl
  obtain ⟨q, compiled', decides', _⟩ := @eval_text_equality .standard Clinic.scope "town" _ resolved
    rfl rfl rfl (.ofQuoted "*(50%\\_*") (.object [("city", .string "at\n(50m\\x.")]) _ rfl
  cases made.symm.trans compiled
  cases made.symm.trans compiled'
  exact ⟨resolved, _, made, (decides compiles).1.mpr (by decide +kernel),
    (decides' compiles).2 (by decide +kernel)⟩

end Predicate

end EntityFilter

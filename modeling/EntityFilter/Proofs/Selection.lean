import EntityFilter.Program.Check
import EntityFilter.Proofs.Fallible

namespace EntityFilter

open Fallible

namespace Predicate

variable {engine : RegexEngine} {α : Type} {p : Predicate} {record : α → Json} {xs : List α}

/-- A selection evaluates the predicate on each of the records, and keeps what it is true of. -/
theorem select_eq_map (engine : RegexEngine) (p : Predicate) (record : α → Json) (xs : List α) :
    p.select engine record xs =
      (xs.mapM fun x => p.eval engine (record x)).map fun _ =>
        xs.filter fun x => p.eval engine (record x) = .ok .true := by
  induction xs with
  | nil => rfl
  | cons x xs ih =>
    rw [select, selects, ih, List.mapM_cons]
    cases worth : p.eval engine (record x) with
    | error e => rfl
    | ok t =>
      cases xs.mapM fun x => p.eval engine (record x) with
      | error e => rfl
      | ok ts => cases t <;> simp [Except.map, bind, Except.bind, pure, Except.pure, worth]

/-- A selection is made of all records that the predicate is true of, if it can be evaluated on
each. -/
theorem select_eq_ok {found : List α} : p.select engine record xs = .ok found ↔
    (∀ x ∈ xs, ∃ t, p.eval engine (record x) = .ok t) ∧
      found = xs.filter fun x => p.eval engine (record x) = .ok .true := by
  rw [select_eq_map, map_eq_ok, exists_and_right, mapM_ok_iff, eq_comm (b := found)]

/-- A selection fails as the first record does at which the predicate cannot be evaluated. -/
theorem select_eq_error {e : ExecutionError} : p.select engine record xs = .error e ↔
    ∃ before x after, xs = before ++ x :: after ∧
      (∀ b ∈ before, ∃ t, p.eval engine (record b) = .ok t) ∧
        p.eval engine (record x) = .error e := by
  rw [select_eq_map, map_eq_error, mapM_eq_error]

end Predicate

/-- The records of an input are the items of an array, or the one value that it is. -/
inductive Json.Gives : Json → List Json → Prop where
  | items (records : List Json) : Gives (.array records) records
  | alone {input : Json} (single : ∀ items, input ≠ .array items) : Gives input [input]

theorem Json.gives_iff {input : Json} {records : List Json} :
    input.Gives records ↔ input.records = records := by
  constructor
  · rintro (_ | single)
    · rfl
    · cases input <;> first | rfl | exact absurd rfl (single _)
  · rintro rfl
    cases input <;> first | exact .items _ | exact .alone fun items h => by cases h

namespace CheckOptions

/-- What each way through a check answers. -/
inductive Answers (engine : RegexEngine) (o : CheckOptions) :
    Except CheckError CheckResult → Prop where
  | wrong {e : CompileError} (fails : Predicate.ofQuery o.scope o.query = .error e) :
    Answers engine o (.error (.compile e))
  | compiled {p : Predicate} (compiles : Predicate.ofQuery o.scope o.query = .ok p)
    (only : o.compileOnly = true) : Answers engine o (.ok (.compiled p))
  | noInput {p : Predicate} (compiles : Predicate.ofQuery o.scope o.query = .ok p)
    (more : o.compileOnly = false) (none : o.input = none) : Answers engine o (.error .noInput)
  | unreadable {p : Predicate} {text : String} {f : JsonFault}
    (compiles : Predicate.ofQuery o.scope o.query = .ok p) (more : o.compileOnly = false)
    (given : o.input = some text) (fault : Json.ofText text = .error f) :
    Answers engine o (.error (.json f))
  | failed {p : Predicate} {text : String} {input : Json} {before after : List Json} {r : Json}
    {e : ExecutionError} (compiles : Predicate.ofQuery o.scope o.query = .ok p)
    (more : o.compileOnly = false) (given : o.input = some text)
    (read : Json.ofText text = .ok input) (records : input.Gives (before ++ r :: after))
    (fine : ∀ b ∈ before, ∃ t, p.eval engine b = .ok t) (fails : p.eval engine r = .error e) :
    Answers engine o (.error (.execution e))
  | matched {p : Predicate} {text : String} {input : Json} {records : List Json}
    (compiles : Predicate.ofQuery o.scope o.query = .ok p) (more : o.compileOnly = false)
    (given : o.input = some text) (read : Json.ofText text = .ok input)
    (gives : input.Gives records) (fine : ∀ r ∈ records, ∃ t, p.eval engine r = .ok t) :
    Answers engine o (.ok (.matched p (records.filter fun r => p.eval engine r = .ok .true)))

variable {engine : RegexEngine} {o : CheckOptions} {p : Predicate}

theorem selectFrom_eq {text : String} {input : Json} (given : o.input = some text)
    (read : Json.ofText text = .ok input) :
    o.selectFrom engine p =
      ((p.select engine id input.records).mapError .execution).map (.matched p) := by
  simp only [selectFrom, given, read, Evaluator.select_fst, Except.mapError, bind, Except.bind]
  cases p.select engine id input.records <;> rfl

theorem check_of_compiles (compiles : Predicate.ofQuery o.scope o.query = .ok p)
    (more : o.compileOnly = false) : o.check engine = o.selectFrom engine p := by
  rw [check, compiles]
  simp [Except.mapError, more, bind, Except.bind]

/-- What stands first of compiling, asking for the predicate alone, looking for an input and reading
it decides the answer. -/
theorem answers_check (engine : RegexEngine) (o : CheckOptions) :
    Answers engine o (o.check engine) := by
  cases compiles : Predicate.ofQuery o.scope o.query with
  | error e =>
    rw [check, compiles]
    exact .wrong compiles
  | ok p =>
    cases only : o.compileOnly with
    | true =>
      rw [check, compiles, only]
      exact .compiled compiles only
    | false =>
      rw [check_of_compiles compiles only]
      cases given : o.input with
      | none =>
        rw [selectFrom, given]
        exact .noInput compiles only given
      | some text =>
        cases read : Json.ofText text with
        | error f =>
          rw [selectFrom, given]
          simp only [read]
          exact .unreadable compiles only given read
        | ok input =>
          rw [selectFrom_eq given read]
          cases selection : p.select engine id input.records with
          | error e =>
            obtain ⟨before, r, after, records, fine, fails⟩ :=
              Predicate.select_eq_error.mp selection
            exact .failed compiles only given read (Json.gives_iff.mpr records) fine fails
          | ok found =>
            obtain ⟨fine, rfl⟩ := Predicate.select_eq_ok.mp selection
            exact .matched compiles only given read (Json.gives_iff.mpr rfl) fine

/-- There is one answer only. -/
theorem check_of_answers {a : Except CheckError CheckResult} (h : Answers engine o a) :
    o.check engine = a := by
  cases h with
  | wrong fails =>
    rw [check, fails]
    rfl
  | compiled compiles only =>
    rw [check, compiles, only]
    rfl
  | noInput compiles more none =>
    rw [check_of_compiles compiles more, selectFrom, none]
  | unreadable compiles more given fault =>
    rw [check_of_compiles compiles more, selectFrom, given]
    simp only [fault]
    rfl
  | @failed p _ input _ _ _ e compiles more given read records fine fails =>
    have first : p.select engine id input.records = .error e :=
      Predicate.select_eq_error.mpr ⟨_, _, _, Json.gives_iff.mp records, fine, fails⟩
    rw [check_of_compiles compiles more, selectFrom_eq given read, first]
    rfl
  | @matched p _ input records compiles more given read gives fine =>
    have all : p.select engine id input.records =
        .ok (records.filter fun r => p.eval engine r = .ok .true) := by
      rw [Json.gives_iff.mp gives]
      exact Predicate.select_eq_ok.mpr ⟨fine, rfl⟩
    rw [check_of_compiles compiles more, selectFrom_eq given read, all]
    rfl

/-- A check gives the one answer that its way has. A selection, from whatever evaluator, is made of
just the records that the predicate is true of, in their order and as often as they are there, if it
can be evaluated on all of them; or else it fails as the first does on which it cannot. -/
theorem check_exact (engine : RegexEngine) (o : CheckOptions) :
    (∀ a, o.check engine = a ↔ Answers engine o a) ∧
    ∀ (e : Evaluator engine) (p : Predicate) (records : List Json),
      (∀ found, (e.select p id records).1 = .ok found ↔
        (∀ r ∈ records, ∃ t, p.eval engine r = .ok t) ∧
          found = records.filter fun r => p.eval engine r = .ok .true) ∧
      ∀ x, (e.select p id records).1 = .error x ↔
        ∃ before r after, records = before ++ r :: after ∧
          (∀ b ∈ before, ∃ t, p.eval engine b = .ok t) ∧ p.eval engine r = .error x := by
  refine ⟨fun a => ⟨fun h => h ▸ answers_check engine o, check_of_answers⟩, fun e p records => ?_⟩
  rw [Evaluator.select_fst]
  exact ⟨fun found => Predicate.select_eq_ok, fun x => Predicate.select_eq_error⟩

end CheckOptions

end EntityFilter

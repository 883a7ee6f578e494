import EntityFilter.Filter.Evaluator
import EntityFilter.Proofs.Clinic
import EntityFilter.Proofs.RegularExpressions

namespace EntityFilter

namespace Predicate

variable {engine : RegexEngine}

/-- Whether a connector goes on to its right operand when the left one came to this. -/
def goesOn (decisive : Truth) : Outcome → Bool
  | .ok t => t != decisive
  | .error _ => false

/-- The patterns of the leaves that evaluation comes to, in their order. -/
def reached (engine : RegexEngine) (record : Json) : Predicate → List LikePattern
  | and p q =>
    p.reached engine record ++
      if goesOn .false (p.eval engine record) then q.reached engine record else []
  | or p q =>
    p.reached engine record ++
      if goesOn .true (p.eval engine record) then q.reached engine record else []
  | not p => p.reached engine record
  | like _ pattern _ => [pattern]
  | compare .. | contains .. | size .. => []

/-- The same for a selection, which a record that fails ends. -/
def reachedAmong {α : Type} (engine : RegexEngine) (p : Predicate) (record : α → Json) :
    List α → List LikePattern
  | [] => []
  | x :: xs =>
    p.reached engine (record x) ++
      match p.selects engine (record x) with
      | .ok _ => p.reachedAmong engine record xs
      | .error _ => []

end Predicate

namespace Evaluator

open Predicate

variable {engine : RegexEngine}

/-- The evaluator after it came to the patterns one after another. -/
def keepAll (e : Evaluator engine) (ps : List LikePattern) : Evaluator engine :=
  ps.foldl (fun e p => (e.itemsOf p).2) e

theorem keepAll_append (e : Evaluator engine) (ps qs : List LikePattern) :
    e.keepAll (ps ++ qs) = (e.keepAll ps).keepAll qs := List.foldl_append

/-- An evaluator keeps the patterns of the leaves that were come to, and no others, and its answer
is that of the predicate. -/
theorem eval_eq (record : Json) (e : Evaluator engine) (p : Predicate) :
    eval record e p = (p.eval engine record, e.keepAll (p.reached engine record)) := by
  refine Prod.ext (eval_fst record e p) ?_
  induction p generalizing e with
  | and p q ihp ihq | or p q ihp ihq =>
    have left : eval record e p = (p.eval engine record, e.keepAll (p.reached engine record)) :=
      Prod.ext (eval_fst record e p) (ihp e)
    rw [eval, left, reached, keepAll_append]
    cases p.eval engine record with
    | error x => rfl
    | ok t => cases t <;> first | rfl | exact ihq _
  | not p ih => exact ih e
  | like path pattern negated =>
    have kept : (eval record e (.like path pattern negated)).2 = (e.itemsOf pattern).2 := by
      unfold eval
      split <;> rename_i found <;> rw [found]
    exact kept
  | compare | contains | size => rfl

theorem selects_eq (e : Evaluator engine) (p : Predicate) (record : Json) :
    e.selects p record = (p.selects engine record, e.keepAll (p.reached engine record)) := by
  rw [selects, eval_eq]
  rfl

/-- A selection stops at the record that fails, and so does what is kept. -/
theorem select_eq {α : Type} (p : Predicate) (record : α → Json) (e : Evaluator engine)
    (xs : List α) : select p record e xs =
      (p.select engine record xs, e.keepAll (p.reachedAmong engine record xs)) := by
  refine Prod.ext (select_fst p record e xs) ?_
  induction xs generalizing e with
  | nil => rfl
  | cons x xs ih =>
    rw [select, selects_eq, reachedAmong, keepAll_append]
    cases p.selects engine (record x) with
    | error err => rfl
    | ok selected => exact ih _

/-- A pattern that is kept stays as it is, and one that is come to is kept unless it is refused. -/
theorem get?_itemsOf (e : Evaluator engine) (p : LikePattern) (text : String) :
    (e.itemsOf p).2.compiled.get? text =
      if text = p.text then (p.compile engine).toOption else e.compiled.get? text := by
  unfold itemsOf
  split
  · rename_i is found
    split
    · rename_i same
      rw [same, found, show p.compile engine = .ok is from e.compiled_eq p.text is found]
      rfl
    · rfl
  · rename_i absent
    split
    · rename_i is made
      have kept : (p.compile engine).toOption = some is := by rw [made]; rfl
      rw [kept]
      exact Table.get?_insert e.compiled p.text text is
    · rename_i x refused
      split
      · rename_i same
        rw [same, absent, refused]
        rfl
      · rfl

/-- What is kept under a text is what the text alone compiles to, whenever it was come to. -/
theorem get?_keepAll (e : Evaluator engine) (ps : List LikePattern) (text : String) :
    (e.keepAll ps).compiled.get? text =
      if ⟨text⟩ ∈ ps then (LikePattern.compile engine ⟨text⟩).toOption
      else e.compiled.get? text := by
  induction ps generalizing e with
  | nil => simp [keepAll]
  | cons p ps ih =>
    have further : (e.keepAll (p :: ps)).compiled.get? text = _ := ih (e.itemsOf p).2
    rw [further, get?_itemsOf]
    by_cases same : text = p.text
    · subst same
      simp
    · have other : (⟨text⟩ : LikePattern) ≠ p := fun h => same (h ▸ rfl)
      simp [same, other]

variable {α : Type}

inductive Call (α : Type) where
  | eval (p : Predicate) (x : α)
  | selects (p : Predicate) (x : α)
  | select (p : Predicate) (xs : List α)

inductive Answer (α : Type) where
  | truth (outcome : Outcome)
  | selected (outcome : Except ExecutionError Bool)
  | selection (outcome : Except ExecutionError (List α))

/-- What a call answers, and the evaluator after it, whether it fails or not. -/
def answer (record : α → Json) (e : Evaluator engine) : Call α → Answer α × Evaluator engine
  | .eval p x => (Evaluator.eval (record x) e p).map .truth id
  | .selects p x => (e.selects p (record x)).map .selected id
  | .select p xs => (Evaluator.select p record e xs).map .selection id

def Call.reached (engine : RegexEngine) (record : α → Json) : Call α → List LikePattern
  | eval p x | selects p x => p.reached engine (record x)
  | select p xs => p.reachedAmong engine record xs

/-- What is answered where nothing is kept. -/
def Call.outcome (engine : RegexEngine) (record : α → Json) : Call α → Answer α
  | eval p x => .truth (p.eval engine (record x))
  | selects p x => .selected (p.selects engine (record x))
  | select p xs => .selection (p.select engine record xs)

/-- Calls on one evaluator, each on what the one before it has left. -/
def answers (record : α → Json) :
    Evaluator engine → List (Call α) → List (Answer α) × Evaluator engine
  | e, [] => ([], e)
  | e, c :: cs =>
    let (a, e) := e.answer record c
    let (as, e) := answers record e cs
    (a :: as, e)

/-- The answer is the same from every evaluator, and what the call keeps it keeps in every one. -/
theorem answer_eq (record : α → Json) (e : Evaluator engine) (c : Call α) :
    e.answer record c = (c.outcome engine record, e.keepAll (c.reached engine record)) := by
  cases c with
  | eval p x =>
    rw [answer, eval_eq]
    rfl
  | selects p x =>
    rw [answer, selects_eq]
    rfl
  | select p xs =>
    rw [answer, select_eq]
    rfl

/-- The table after any calls is known from the calls alone, and no answer hangs on it. -/
theorem answers_eq (record : α → Json) (e : Evaluator engine) (cs : List (Call α)) :
    answers record e cs =
      (cs.map (Call.outcome engine record), e.keepAll (cs.flatMap (Call.reached engine record))) := by
  induction cs generalizing e with
  | nil => rfl
  | cons c cs ih =>
    rw [answers, answer_eq, List.flatMap_cons, keepAll_append]
    simp only [ih]
    rfl

/-- Each of any calls on one evaluator is answered as by a new one, whatever the calls before it
were and whether they failed, and that is as where nothing is kept. After them the patterns that
they came to and that were not refused are kept and nothing else, and what is kept of a pattern
matches the texts in which its regular expression is found. -/
theorem answers_transparent (record : α → Json) (cs : List (Call α)) :
    (answers record (new engine) cs).1 = cs.map (fun c => ((new engine).answer record c).1) ∧
    (∀ c, ((new engine).answer record c).1 = c.outcome engine record) ∧
    ∀ text,
      (answers record (new engine) cs).2.compiled.get? text =
        (if ⟨text⟩ ∈ cs.flatMap (Call.reached engine record) then
          (LikePattern.compile engine ⟨text⟩).toOption
        else none) ∧
      ∀ is, (answers record (new engine) cs).2.compiled.get? text = some is →
        LikePattern.compile engine ⟨text⟩ = .ok is ∧ ∀ s : String,
          LikeItem.matchesAll is s.toList = true ↔
            Regex.Finds (LikePattern.regexSource ⟨text⟩).toList s.toList := by
  have fresh : ∀ c, ((new engine).answer record c).1 = c.outcome engine record := by
    intro c
    rw [answer_eq]
  simp only [fresh, answers_eq]
  refine ⟨trivial, fun c => trivial, fun text => ⟨get?_keepAll (new engine) _ text, ?_⟩⟩
  intro is kept
  have made := Evaluator.compiled_eq _ text is kept
  refine ⟨made, fun s => ?_⟩
  rw [LikePattern.finds_regexSource_iff, ← LikeItem.matchesAll_iff,
    (LikePattern.compile_eq_ok.mp made).2]

/-- The first pattern stands behind what decides, and the second in a call that fails. -/
example :
    (answers id (new .standard)
      [.selects (.and (.compare Clinic.name .eq (.string "Leo")) (.like Clinic.name ⟨"M%"⟩ false))
          Clinic.max,
        .eval (.like Clinic.name ⟨"L%"⟩ true) (.object [("name", .bool true)])]).2.compiled.names =
      ["L%"] := by decide +kernel

end Evaluator

end EntityFilter

import EntityFilter.Filter.Evaluation

namespace EntityFilter

/-- An evaluator for many records. It compiles every pattern once and keeps what it made of it, and
no answer hangs on what it keeps. -/
structure Evaluator (engine : RegexEngine) where
  /-- The items of compiled patterns by their text. -/
  compiled : Table (List LikeItem)
  compiled_eq : ∀ text is, compiled.get? text = some is → LikePattern.compile engine ⟨text⟩ = .ok is

namespace Evaluator

open Predicate

def new (engine : RegexEngine) : Evaluator engine := ⟨.empty, by simp [Table.get?, Table.empty]⟩

variable {engine : RegexEngine}

def keep (e : Evaluator engine) {p : LikePattern} {is : List LikeItem}
    (made : p.compile engine = .ok is) : Evaluator engine :=
  ⟨e.compiled.insert p.text is, by
    intro text is' h
    rw [Table.get?_insert] at h
    split at h
    · rename_i same
      cases h
      rw [same]
      exact made
    · exact e.compiled_eq text is' h⟩

/-- Nothing is kept of a pattern that is refused. -/
def itemsOf (e : Evaluator engine) (p : LikePattern) :
    Except ExecutionError (List LikeItem) × Evaluator engine :=
  match e.compiled.get? p.text with
  | some is => (.ok is, e)
  | none =>
    match made : p.compile engine with
    | .ok is => (.ok is, e.keep made)
    | .error x => (.error x, e)

theorem itemsOf_fst (e : Evaluator engine) (p : LikePattern) :
    (e.itemsOf p).1 = p.compile engine := by
  unfold itemsOf
  split
  · rename_i is kept
    exact (e.compiled_eq p.text is kept).symm
  · split
    · rename_i made
      exact made.symm
    · rename_i refused
      exact refused.symm

def eval (record : Json) : Evaluator engine → Predicate → Outcome × Evaluator engine
  | e, .and p q =>
    match eval record e p with
    | (.ok .false, e) => (.ok .false, e)
    | (.ok t, e) =>
      let (o, e) := eval record e q
      (o.map t.and, e)
    | (.error x, e) => (.error x, e)
  | e, .or p q =>
    match eval record e p with
    | (.ok .true, e) => (.ok .true, e)
    | (.ok t, e) =>
      let (o, e) := eval record e q
      (o.map t.or, e)
    | (.error x, e) => (.error x, e)
  | e, .not p =>
    let (o, e) := eval record e p
    (o.map Truth.not, e)
  | e, .compare path r v => (evalCompare record path r v, e)
  | e, .like path pattern negated =>
    match e.itemsOf pattern with
    | (.ok is, e) => (evalLike record path is negated, e)
    | (.error x, e) => (.error x, e)
  | e, .contains path v negated => (evalContains record path v negated, e)
  | e, .size path r v => (evalSize record path r v, e)

def selects (e : Evaluator engine) (p : Predicate) (record : Json) :
    Except ExecutionError Bool × Evaluator engine :=
  let (o, e) := eval record e p
  (o.map (· == .true), e)

/-- As `Predicate.select`. -/
def select {α : Type} (p : Predicate) (record : α → Json) :
    Evaluator engine → List α → Except ExecutionError (List α) × Evaluator engine
  | e, [] => (.ok [], e)
  | e, x :: xs =>
    match e.selects p (record x) with
    | (.error err, e) => (.error err, e)
    | (.ok selected, e) =>
      let (rest, e) := select p record e xs
      (rest.map fun ys => if selected then x :: ys else ys, e)

/-- What is kept makes no difference to an answer. -/
theorem eval_fst (record : Json) (e : Evaluator engine) (p : Predicate) :
    (eval record e p).1 = p.eval engine record := by
  induction p generalizing e with
  | and p q ihp ihq | or p q ihp ihq =>
    have hp := ihp e
    cases h : eval record e p with
    | mk o e' =>
      rw [h] at hp
      simp only at hp
      cases o with
      | error x => simp [eval, h, Predicate.eval, ← hp, bind, Except.bind]
      | ok t => cases t <;> simp [eval, h, Predicate.eval, ← hp, ihq, bind, Except.bind]
  | not p ih => simp [eval, Predicate.eval, ih]
  | like path pattern negated =>
    have found := itemsOf_fst e pattern
    cases h : e.itemsOf pattern with
    | mk o e' =>
      rw [h] at found
      simp only at found
      cases o <;> simp [eval, h, Predicate.eval, ← found, bind, Except.bind]
  | compare | contains | size => rfl

theorem selects_fst (e : Evaluator engine) (p : Predicate) (record : Json) :
    (e.selects p record).1 = p.selects engine record := by
  simp [selects, Predicate.selects, eval_fst]

theorem select_fst {α : Type} (p : Predicate) (record : α → Json) (e : Evaluator engine)
    (xs : List α) : (select p record e xs).1 = p.select engine record xs := by
  induction xs generalizing e with
  | nil => rfl
  | cons x xs ih =>
    have hs := selects_fst e p (record x)
    cases h : e.selects p (record x) with
    | mk o e' =>
      rw [h] at hs
      simp only at hs
      cases o with
      | error err => simp [select, h, Predicate.select, ← hs, bind, Except.bind]
      | ok b =>
        have hi := ih e'
        cases hr : p.select engine record xs with
        | error err => simp [select, h, Predicate.select, ← hs, hi, hr, bind, Except.bind, Except.map]
        | ok ys => simp [select, h, Predicate.select, ← hs, hi, hr, bind, Except.bind, Except.map]

end Evaluator

end EntityFilter

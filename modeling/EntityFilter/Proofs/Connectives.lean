import EntityFilter.Proofs.AllOrNothing
import EntityFilter.Proofs.Clinic

namespace EntityFilter

open Fallible Predicate

namespace Connector

/-- The truth of a join from those of its operands. -/
def truth : Connector → Truth → Truth → Truth
  | and, t, u => t.and u
  | or, t, u => t.or u
  | nand, t, u => t.not.and u.not
  | nor, t, u => t.not.or u.not

theorem truth_comm (c : Connector) (t u : Truth) : c.truth t u = c.truth u t := by
  cases c with
  | and => exact Truth.and_comm t u
  | or => exact Truth.or_comm t u
  | nand => exact Truth.and_comm t.not u.not
  | nor => exact Truth.or_comm t.not u.not

/-- With a left operand of this truth the right one makes no difference. -/
def Decides (c : Connector) (t : Truth) : Prop := ∀ u u', c.truth t u = c.truth t u'

/-- The one truth that decides. -/
def decisive : Connector → Truth
  | and | nor => .false
  | or | nand => .true

/-- Just one truth of the left operand decides a join. -/
theorem decides_iff {c : Connector} {t : Truth} : c.Decides t ↔ t = c.decisive := by
  constructor
  · intro h
    have same := h .true .false
    revert same
    cases c <;> cases t <;> decide
  · rintro rfl u u'
    cases c <;> rfl

instance (c : Connector) (t : Truth) : Decidable (c.Decides t) := decidable_of_iff _ decides_iff.symm

end Connector

namespace Expression

/-- The meaning of a tree from that of its comparisons. The right operand is read only if the left
one does not decide, so what it fails for does not count then. -/
def interpret (worth : Comparison → Outcome) : Expression → Outcome
  | comparison s r l => worth ⟨s, r, l⟩
  | joined c a b => do
    let t ← a.interpret worth
    if c.Decides t then .ok (c.truth t .unknown) else (b.interpret worth).map (c.truth t)

/-- The truth of a tree from those of all its comparisons. -/
def fold (value : Comparison → Truth) : Expression → Truth
  | comparison s r l => value ⟨s, r, l⟩
  | joined c a b => c.truth (a.fold value) (b.fold value)

/-- Where no comparison fails, the tree is worth the fold of their truths, whether operands are left
out or not. -/
theorem interpret_eq_fold {worth : Comparison → Outcome} {value : Comparison → Truth}
    {e : Expression} (h : ∀ c ∈ e.comparisons, worth c = .ok (value c)) :
    e.interpret worth = .ok (e.fold value) := by
  induction e with
  | comparison s r l => exact h _ (List.mem_singleton_self _)
  | joined c a b iha ihb =>
    have left := iha fun d hd => h d (List.mem_append_left _ hd)
    have right := ihb fun d hd => h d (List.mem_append_right _ hd)
    simp only [interpret, fold, left, right, bind, Except.bind]
    split
    · rename_i decides
      rw [decides .unknown (b.fold value)]
    · rfl

/-- The second tree is the first with the operands of some of its joins swapped. -/
inductive Rearranged : Expression → Expression → Prop where
  | comparison (s : String) (r : Relation) (l : Literal) :
    Rearranged (.comparison s r l) (.comparison s r l)
  | joined (c : Connector) {a a' b b' : Expression} (left : Rearranged a a')
    (right : Rearranged b b') : Rearranged (.joined c a b) (.joined c a' b')
  | swapped (c : Connector) {a a' b b' : Expression} (left : Rearranged a a')
    (right : Rearranged b b') : Rearranged (.joined c a b) (.joined c b' a')

namespace Rearranged

variable {e e' : Expression}

theorem height_eq (h : Rearranged e e') : e'.height = e.height := by
  induction h with
  | comparison => rfl
  | joined _ _ _ left right => simp only [height, left, right]
  | swapped _ _ _ left right => simp only [height, left, right, Nat.max_comm]

theorem mem_comparisons_iff (h : Rearranged e e') (c : Comparison) :
    c ∈ e'.comparisons ↔ c ∈ e.comparisons := by
  induction h with
  | comparison => exact Iff.rfl
  | joined _ _ _ left right => simp only [comparisons, List.mem_append, left, right]
  | swapped _ _ _ left right => simp only [comparisons, List.mem_append, left, right, or_comm]

theorem fold_eq (h : Rearranged e e') (value : Comparison → Truth) :
    e'.fold value = e.fold value := by
  induction h with
  | comparison => rfl
  | joined _ _ _ left right => rw [fold, fold, left, right]
  | swapped c _ _ left right => rw [fold, fold, left, right, c.truth_comm]

end Rearranged

end Expression

namespace Predicate

variable {engine : RegexEngine}

/-- A predicate is composed so that it is evaluated as its connector joins truths. -/
theorem eval_compose (record : Json) (c : Connector) (p q : Predicate) :
    (compose c p q).eval engine record = (do
      let t ← p.eval engine record
      if c.Decides t then .ok (c.truth t .unknown) else (q.eval engine record).map (c.truth t)) := by
  simp only [Connector.decides_iff]
  cases c with
  | and | or =>
    simp only [compose, eval]
    cases p.eval engine record with
    | error x => rfl
    | ok t => cases t <;> rfl
  | nand | nor =>
    simp only [compose, eval]
    cases p.eval engine record with
    | error x => rfl
    | ok t => cases t <;> cases q.eval engine record <;> rfl

/-- A tree evaluates to what it means, if its comparisons are worth what their leaves are. -/
theorem eval_ofTree {scope : Scope} {e : Expression} {p : Predicate} (h : ofTree scope e = .ok p)
    (record : Json) {leaf : Comparison → Predicate}
    (leaves : ∀ c ∈ e.comparisons, c.compile scope = .ok (leaf c)) :
    p.eval engine record = e.interpret fun c => (leaf c).eval engine record := by
  induction e generalizing p with
  | comparison s r l =>
    have made : ofTree scope (.comparison s r l) = .ok (leaf ⟨s, r, l⟩) :=
      leaves _ (List.mem_singleton_self _)
    rw [h] at made
    cases made
    rfl
  | joined c a b iha ihb =>
    obtain ⟨p, hp, h⟩ := bind_eq_ok.mp h
    obtain ⟨q, hq, h⟩ := bind_eq_ok.mp h
    cases h
    have left := iha hp fun d hd => leaves d (List.mem_append_left _ hd)
    have right := ihb hq fun d hd => leaves d (List.mem_append_right _ hd)
    rw [eval_compose, left, right]
    rfl

/-- What a filter means: its tree read from left to right, a comparison being worth what its leaf
is. -/
theorem eval_eq_fold {scope : Scope} {e : Expression} {p : Predicate} (h : ofTree scope e = .ok p)
    (record : Json) {leaf : Comparison → Predicate} {value : Comparison → Truth}
    (leaves : ∀ c ∈ e.comparisons, c.compile scope = .ok (leaf c))
    (fine : ∀ c ∈ e.comparisons, (leaf c).eval engine record = .ok (value c)) :
    p.eval engine record = .ok (e.fold value) := by
  rw [eval_ofTree h record leaves]
  exact Expression.interpret_eq_fold fine

theorem shallow_of_ofExpression {scope : Scope} {e : Expression} {p : Predicate}
    (h : ofExpression scope e = .ok p) : e.height ≤ maxDepth := by
  by_contra deep
  rw [ofExpression_of_deep (Nat.lt_of_not_le deep)] at h
  cases h

/-- A compiled filter evaluates to the meaning of its tree. Where no comparison fails this is the
truth of all of them joined, whether or not some were left out and in whatever order they are
joined. -/
theorem eval_eq_interpret {scope : Scope} {e : Expression} {p : Predicate}
    (compiled : ofExpression scope e = .ok p) (record : Json) :
    ∃ leaf : Comparison → Predicate,
      (∀ c ∈ e.comparisons, ofExpression scope c.alone = .ok (leaf c)) ∧
      p.eval engine record = e.interpret (fun c => (leaf c).eval engine record) ∧
      ∀ value : Comparison → Truth,
        (∀ c ∈ e.comparisons, (leaf c).eval engine record = .ok (value c)) →
        p.eval engine record = .ok (e.fold value) ∧
          ∀ e', e.Rearranged e' →
            ∃ p', ofExpression scope e' = .ok p' ∧ p'.eval engine record = .ok (e.fold value) := by
  have tree := ofTree_of_ofExpression compiled
  have shallow := shallow_of_ofExpression compiled
  -- What does not occur in the tree may have any leaf.
  let leaf : Comparison → Predicate := fun c => (c.compile scope).toOption.getD p
  have leaves : ∀ c ∈ e.comparisons, c.compile scope = .ok (leaf c) := by
    intro c hc
    obtain ⟨q, made⟩ := ofTree_ok_iff.mp ⟨p, tree⟩ c hc
    simp [leaf, made, Except.toOption]
  refine ⟨leaf, ?_, eval_ofTree tree record leaves, ?_⟩
  · intro c hc
    rw [ofExpression_alone]
    exact leaves c hc
  · intro value fine
    refine ⟨eval_eq_fold tree record leaves fine, ?_⟩
    intro e' rearranged
    have same := rearranged.mem_comparisons_iff
    have leaves' : ∀ c ∈ e'.comparisons, c.compile scope = .ok (leaf c) :=
      fun c hc => leaves c ((same c).mp hc)
    have fine' : ∀ c ∈ e'.comparisons, (leaf c).eval engine record = .ok (value c) :=
      fun c hc => fine c ((same c).mp hc)
    obtain ⟨p', tree'⟩ := ofTree_ok_iff.mpr fun c hc => ⟨leaf c, leaves' c hc⟩
    refine ⟨p', ?_, ?_⟩
    · rw [ofExpression_of_shallow (rearranged.height_eq ▸ shallow)]
      exact tree'
    · rw [← rearranged.fold_eq]
      exact eval_eq_fold tree' record leaves' fine'

/-- Of an owner with one pet of unknown age it is unknown, whichever comparison comes first. -/
theorem eval_eq_interpret_of_clinic :
    ofExpression Clinic.scope Clinic.newcomers = .ok Clinic.newcomersPredicate ∧
      Clinic.newcomersPredicate.eval .standard Clinic.owner = .ok .unknown ∧
      ∃ p, ofExpression Clinic.scope (.joined .nand (.comparison "pets.weights" .gt (.ofBare "1"))
          (.comparison "pets.age" .ge (.ofBare "2"))) = .ok p ∧
        p.eval .standard Clinic.owner = .ok .unknown := by
  have compiled : ofExpression Clinic.scope Clinic.newcomers =
      .ok Clinic.newcomersPredicate := by cbv
  obtain ⟨leaf, made, _, fold⟩ := eval_eq_interpret compiled Clinic.owner
  let value : Comparison → Truth := fun c => if c.relation = .ge then .unknown else .false
  have fine : ∀ c ∈ Clinic.newcomers.comparisons,
      (leaf c).eval .standard Clinic.owner = .ok (value c) := by
    intro c hc
    have own := made c hc
    simp only [Clinic.newcomers, Expression.comparisons, List.cons_append, List.nil_append,
      List.mem_cons, List.not_mem_nil, or_false] at hc
    rcases hc with rfl | rfl
    · have age : ofExpression Clinic.scope (.comparison "pets.age" .ge (.ofBare "2")) =
          .ok (.compare Clinic.age .ge (.integer 2)) := by cbv
      rw [← Except.ok.inj (age.symm.trans own)]
      cbv
    · have weights : ofExpression Clinic.scope (.comparison "pets.weights" .gt (.ofBare "1")) =
          .ok (.size Clinic.weights .gt (.integer 1)) := by cbv
      rw [← Except.ok.inj (weights.symm.trans own)]
      cbv
  have truth : Clinic.newcomers.fold value = .unknown := by decide
  obtain ⟨whole, rearranged⟩ := fold value fine
  rw [truth] at whole rearranged
  exact ⟨compiled, whole, rearranged _ (.swapped .nand (.comparison ..) (.comparison ..))⟩

end Predicate

end EntityFilter

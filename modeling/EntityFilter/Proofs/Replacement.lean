import EntityFilter.Proofs.AllOrNothing

namespace EntityFilter

namespace Expression

/-- The tree with other comparisons in the places of its own. -/
def replace (f : Comparison → Comparison) : Expression → Expression
  | comparison s r l => (f ⟨s, r, l⟩).alone
  | joined c a b => joined c (a.replace f) (b.replace f)

variable (f : Comparison → Comparison) (e : Expression)

theorem height_replace : (e.replace f).height = e.height := by
  induction e with
  | comparison => rfl
  | joined c a b iha ihb => simp only [replace, height, iha, ihb]

theorem comparisons_replace : (e.replace f).comparisons = e.comparisons.map f := by
  induction e with
  | comparison => rfl
  | joined c a b iha ihb => simp only [replace, comparisons, iha, ihb, List.map_append]

end Expression

namespace Predicate

open Fallible

variable {scope scope' : Scope} {f : Comparison → Comparison} {e : Expression}

/-- If the comparisons are compiled to the same leaves as those in their places, so are the trees.
-/
theorem ofTree_replace_iff {p : Predicate}
    (h : ∀ c ∈ e.comparisons, ∀ leaf, c.compile scope = .ok leaf ↔ (f c).compile scope' = .ok leaf) :
    ofTree scope e = .ok p ↔ ofTree scope' (e.replace f) = .ok p := by
  induction e generalizing p with
  | comparison s r l => exact h _ (List.mem_singleton_self _) p
  | joined c a b iha ihb =>
    simp only [Expression.replace, ofTree, bind_eq_ok]
    simp only [iha fun d hd => h d (List.mem_append_left _ hd),
      ihb fun d hd => h d (List.mem_append_right _ hd)]

/-- A tie between leaves that connectors keep is one between the predicates of the trees. -/
theorem ofTree_replace_of_ok {tie : Predicate → Predicate → Prop}
    (kept : ∀ c {p p' q q'}, tie p p' → tie q q' → tie (compose c p q) (compose c p' q'))
    (h : ∀ c ∈ e.comparisons, ∀ leaf, c.compile scope = .ok leaf →
      ∃ leaf', (f c).compile scope' = .ok leaf' ∧ tie leaf leaf')
    {p : Predicate} (compiled : ofTree scope e = .ok p) :
    ∃ p', ofTree scope' (e.replace f) = .ok p' ∧ tie p p' := by
  induction e generalizing p with
  | comparison s r l => exact h _ (List.mem_singleton_self _) p compiled
  | joined c a b iha ihb =>
    obtain ⟨p, hp, compiled⟩ := bind_eq_ok.mp compiled
    obtain ⟨q, hq, compiled⟩ := bind_eq_ok.mp compiled
    cases compiled
    obtain ⟨p', hp', left⟩ := iha (fun d hd => h d (List.mem_append_left _ hd)) hp
    obtain ⟨q', hq', right⟩ := ihb (fun d hd => h d (List.mem_append_right _ hd)) hq
    exact ⟨compose c p' q', ofTree_joined hp' hq', kept c left right⟩

/-- If other comparisons compile to the same leaves, the tree compiles to the same predicate. It is
as deep as before. -/
theorem ofExpression_replace_iff {p : Predicate}
    (h : ∀ c ∈ e.comparisons, ∀ leaf, c.compile scope = .ok leaf ↔ (f c).compile scope' = .ok leaf) :
    ofExpression scope e = .ok p ↔ ofExpression scope' (e.replace f) = .ok p := by
  rw [ofExpression_eq_ok, ofExpression_eq_ok, e.height_replace f, ofTree_replace_iff h]

/-- Whatever ties the leaves of other comparisons to those that they replace ties the predicates of
the two trees. -/
theorem ofExpression_replace_of_ok {tie : Predicate → Predicate → Prop}
    (kept : ∀ c {p p' q q'}, tie p p' → tie q q' → tie (compose c p q) (compose c p' q'))
    (h : ∀ c ∈ e.comparisons, ∀ leaf, c.compile scope = .ok leaf →
      ∃ leaf', (f c).compile scope' = .ok leaf' ∧ tie leaf leaf')
    {p : Predicate} (compiled : ofExpression scope e = .ok p) :
    ∃ p', ofExpression scope' (e.replace f) = .ok p' ∧ tie p p' := by
  obtain ⟨shallow, compiled⟩ := ofExpression_eq_ok.mp compiled
  obtain ⟨p', compiled', tied⟩ := ofTree_replace_of_ok kept h compiled
  exact ⟨p', ofExpression_eq_ok.mpr ⟨(e.height_replace f).le.trans shallow, compiled'⟩, tied⟩

end Predicate

end EntityFilter

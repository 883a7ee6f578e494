import EntityFilter.Proofs.Fallible

namespace EntityFilter.Truth

open Fallible

/-- Truths are ordered, false below unknown and unknown below true: a join is one of its operands.
-/
theorem or_eq_or_or_or (t u : Truth) : t.or u = t ∨ t.or u = u := by
  cases t <;> cases u <;> decide

theorem or_self (t : Truth) : t.or t = t := by cases t <;> rfl

theorem or_false (t : Truth) : t.or .false = t := by cases t <;> rfl

theorem true_or (t : Truth) : Truth.or .true t = .true := by cases t <;> rfl

theorem or_true (t : Truth) : t.or .true = .true := by cases t <;> rfl

theorem left_or_or (t u : Truth) : t.or (t.or u) = t.or u := by rw [← or_assoc, or_self]

/-- The truth is the greatest of those of the items. All of them were tested unless it is true. -/
structure Found {ε α : Type} (test : α → Except ε Truth) (xs : List α) (t : Truth) : Prop where
  reached : t = .false ∨ ∃ x ∈ xs, test x = .ok t
  bound : ∀ x ∈ xs, ∀ v, test x = .ok v → t.or v = t
  tested : t ≠ .true → ∀ x ∈ xs, ∃ v, test x = .ok v

variable {ε α : Type} {test : α → Except ε Truth} {x : α} {xs : List α} {s t u v : Truth}

theorem Found.nil : Found test [] .false where
  reached := .inl rfl
  bound := by simp
  tested := by simp

theorem Found.of_true (mem : x ∈ xs) (holds : test x = .ok .true) : Found test xs .true where
  reached := .inr ⟨x, mem, holds⟩
  bound _ _ v _ := v.true_or
  tested other := absurd rfl other

/-- One item more makes the truth found the greater of its own and that of the others. -/
theorem Found.cons (first : test x = .ok v) (rest : Found test xs t) :
    Found test (x :: xs) (v.or t) where
  reached := by
    rcases or_eq_or_or_or v t with same | same
    · rw [same]
      exact .inr ⟨x, List.mem_cons_self, first⟩
    · rw [same]
      exact rest.reached.imp_right fun ⟨y, mem, hy⟩ => ⟨y, List.mem_cons_of_mem _ mem, hy⟩
  bound y mem w hw := by
    rcases List.mem_cons.mp mem with rfl | mem
    · rw [first] at hw
      cases hw
      rw [or_comm, left_or_or]
    · rw [or_assoc, rest.bound y mem w hw]
  tested undecided y mem := by
    rcases List.mem_cons.mp mem with rfl | mem
    · exact ⟨v, first⟩
    · refine rest.tested (fun decided => undecided ?_) y mem
      rw [decided, or_true]

theorem found_of_anyFrom (undecided : s ≠ .true) (h : anyFrom test s xs = .ok t) :
    ∃ v, Found test xs v ∧ t = s.or v := by
  induction xs generalizing s with
  | nil =>
    cases h
    exact ⟨.false, .nil, (or_false _).symm⟩
  | cons x xs ih =>
    obtain ⟨v, hv, h⟩ := bind_eq_ok.mp h
    dsimp only at h
    by_cases found : s.or v = .true
    · rw [if_pos found] at h
      cases h
      have holds : v = .true := by
        rcases or_eq_or_or_or s v with same | same
        · exact absurd (same.symm.trans found) undecided
        · exact same.symm.trans found
      rw [holds] at hv
      exact ⟨.true, .of_true List.mem_cons_self hv, s.or_true.symm⟩
    · rw [if_neg found] at h
      obtain ⟨w, rest, rfl⟩ := ih found h
      exact ⟨v.or w, .cons hv rest, or_assoc s v w⟩

/-- What an existential test comes to is the greatest of the truths of its items. -/
theorem found_of_any (h : any test xs = .ok t) : Found test xs t := by
  obtain ⟨v, found, rfl⟩ := found_of_anyFrom (s := .false) nofun h
  have same : Truth.or .false v = v := (or_comm _ _).trans v.or_false
  rwa [same]

/-- Of two truths each of which is at most the other there is one. -/
theorem eq_of_or_eq (h : t.or u = t) (h' : u.or t = u) : t = u := by
  rw [← h, or_comm, h']

end EntityFilter.Truth

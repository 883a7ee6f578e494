import EntityFilter.Query.Expression

namespace EntityFilter.Expression

/-- The deepest level of the pending trees. -/
def deepestOf (es : List (Expression × Nat)) : Nat :=
  es.foldr (fun (e, d) n => max (d + e.height - 1) n) 0

theorem height_pos (e : Expression) : 0 < e.height := by
  cases e <;> rw [height] <;> omega

/-- The walk comes to the greater of what it has so far and what the pending trees add, whatever
their order. -/
theorem deepestFrom_eq (n : Nat) (es : List (Expression × Nat)) :
    deepestFrom n es = max n (deepestOf es) := by
  fun_induction deepestFrom n es with
  | case1 n => simp [deepestOf]
  | case2 n s r a d es ih =>
    rw [ih]
    simp only [deepestOf, List.foldr_cons, height]
    omega
  | case3 n c l r d es ih =>
    have := l.height_pos
    have := r.height_pos
    rw [ih]
    simp only [deepestOf, List.foldr_cons, height]
    omega

/-- The walks over pending trees give what recursion on a tree gives. -/
theorem depth_eq_height (e : Expression) : e.depth = e.height := by
  rw [depth, deepestFrom_eq]
  simp only [deepestOf, List.foldr_cons, List.foldr_nil]
  omega

theorem selectorsOf_eq (es : List Expression) : selectorsOf es = es.flatMap leaves := by
  fun_induction selectorsOf es with
  | case1 => rfl
  | case2 s r a es ih => simp [leaves, ih]
  | case3 c l r es ih => simp [leaves, ih]

theorem selectors_eq_leaves (e : Expression) : e.selectors = e.leaves := by
  simp [selectors, selectorsOf_eq]

theorem countFrom_eq (n : Nat) (es : List Expression) : countFrom n es = n + totalSize es := by
  fun_induction countFrom n es with
  | case1 n => rfl
  | case2 n s r a es ih =>
    rw [ih]
    simp only [totalSize, List.foldr_cons, size]
    omega
  | case3 n c l r es ih =>
    rw [ih]
    simp only [totalSize, List.foldr_cons, size]
    omega

theorem nodeCount_eq_size (e : Expression) : e.nodeCount = e.size := by
  rw [nodeCount, countFrom_eq]
  exact Nat.zero_add e.size

theorem length_leaves_pos (e : Expression) : 0 < e.leaves.length := by
  induction e with
  | comparison s r a => exact Nat.zero_lt_one
  | joined c l r ihl _ =>
    rw [leaves, List.length_append]
    exact Nat.add_pos_left ihl _

/-- A connector for each comparison but one. -/
theorem size_succ (e : Expression) : e.size + 1 = 2 * e.leaves.length := by
  induction e with
  | comparison s r a => rfl
  | joined c l r ihl ihr =>
    rw [size, leaves, List.length_append]
    omega

theorem height_le_length_leaves (e : Expression) : e.height ≤ e.leaves.length := by
  induction e with
  | comparison s r a => exact Nat.le_refl 1
  | joined c l r ihl ihr =>
    have := l.length_leaves_pos
    have := r.length_leaves_pos
    rw [height, leaves, List.length_append]
    omega

/-- The walks answer what recursion on the tree answers, and so a tree has one node less than twice
its comparisons, and no more levels than comparisons. -/
theorem walks_eq_recursion (e : Expression) :
    e.selectors = e.leaves ∧ e.nodeCount = e.size ∧ e.depth = e.height ∧
      (0 < e.selectors.length ∧ e.nodeCount = 2 * e.selectors.length - 1) ∧
      e.depth ≤ e.selectors.length := by
  have nodes := e.size_succ
  rw [selectors_eq_leaves, nodeCount_eq_size, depth_eq_height]
  exact ⟨rfl, rfl, rfl, ⟨e.length_leaves_pos, by omega⟩, e.height_le_length_leaves⟩

end EntityFilter.Expression

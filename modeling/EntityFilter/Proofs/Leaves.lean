import EntityFilter.Filter.Compilation
import EntityFilter.Filter.Evaluation
import EntityFilter.Proofs.Fallible
import EntityFilter.Proofs.Resolution

namespace EntityFilter

structure Comparison where
  selector : String
  relation : Relation
  argument : Literal
deriving DecidableEq, Repr

namespace Expression

def comparisons : Expression → List Comparison
  | comparison s r l => [⟨s, r, l⟩]
  | joined _ a b => a.comparisons ++ b.comparisons

theorem leaves_eq_map (e : Expression) : e.leaves = e.comparisons.map (·.selector) := by
  induction e with
  | comparison => rfl
  | joined c a b iha ihb => simp [leaves, comparisons, iha, ihb]

end Expression

def Comparison.compile (scope : Scope) (c : Comparison) : Except FilterError Predicate :=
  Predicate.ofComparison scope c.selector c.relation c.argument

namespace Predicate

open Fallible

/-- The parts that look at the record. -/
def leaves : Predicate → List Predicate
  | and p q | or p q => p.leaves ++ q.leaves
  | not p => p.leaves
  | compare path r v => [compare path r v]
  | like path pattern negated => [like path pattern negated]
  | contains path v negated => [contains path v negated]
  | size path r v => [size path r v]

theorem leaves_compose (c : Connector) (p q : Predicate) :
    (compose c p q).leaves = p.leaves ++ q.leaves := by
  cases c <;> rfl

theorem withValue_eq_ok {selector : String} {value : Value.Coerced} {make : Value → Predicate}
    {p : Predicate} : withValue selector value make = .ok p ↔ ∃ v, value = .ok v ∧ make v = p := by
  cases value <;> simp [withValue]

/-- What a comparison over a path is compiled to. Each case keeps what the compiler has checked. -/
inductive LeafOf (policy : Policy) (path : Path) (r : Relation) (l : Literal) : Predicate → Prop
    where
  | like {pattern : LikePattern} (text : path.target.type = .string) (equality : r.isOrdering = false)
    (asked : LikePattern.ofLiteral? l policy.alwaysWildcard = some pattern) :
    LeafOf policy path r l (.like path pattern (r == .ne))
  | compare {v : Value} (single : path.isCollectionValued = false)
    (plain : path.target.type.isEntity = false)
    (ordered : r.isOrdering = true → path.target.type.isOrdered = true)
    (exact : patternFor? policy path r l = none) (read : Value.ofLiteral l path.target.type = .ok v) :
    LeafOf policy path r l (.compare path r v)
  | contains {v : Value} (collection : path.isCollectionValued = true)
    (plain : path.target.type.isEntity = false) (equality : r.isOrdering = false)
    (exact : patternFor? policy path r l = none) (read : Value.ofLiteral l path.target.type = .ok v) :
    LeafOf policy path r l (.contains path v (r == .ne))
  | size {v : Value} (collection : path.isCollectionValued = true) (ordering : r.isOrdering = true)
    (read : Value.ofCount l = .ok v) :
    LeafOf policy path r l (.size path r v)

/-- Patterns are made for equality of text only. -/
theorem patternFor?_eq_some {policy : Policy} {path : Path} {r : Relation} {l : Literal}
    {pattern : LikePattern} (h : patternFor? policy path r l = some pattern) :
    path.target.type = .string ∧ r.isOrdering = false ∧
      LikePattern.ofLiteral? l policy.alwaysWildcard = some pattern := by
  simp only [patternFor?, Bool.and_eq_true, beq_iff_eq, Bool.not_eq_true',
    Option.ite_none_right_eq_some] at h
  exact ⟨h.1.1, h.1.2, h.2⟩

theorem leafOf_ofSingle {policy : Policy} {selector : String} {path : Path} {r : Relation}
    {l : Literal} {p : Predicate} (single : path.isCollectionValued = false)
    (h : ofSingle policy selector path r l = .ok p) : LeafOf policy path r l p := by
  simp only [ofSingle] at h
  split at h
  · cases h
  · rename_i supported
    simp only [Bool.or_eq_true, Bool.and_eq_true, Bool.not_eq_true', not_or, not_and,
      Bool.not_eq_true, Bool.not_eq_false] at supported
    split at h
    · rename_i pattern found
      cases h
      obtain ⟨text, equality, asked⟩ := patternFor?_eq_some found
      exact .like text equality asked
    · rename_i exact
      obtain ⟨v, read, rfl⟩ := withValue_eq_ok.mp h
      exact .compare single supported.1 supported.2 exact read

theorem leafOf_ofCollection {policy : Policy} {selector : String} {path : Path} {r : Relation}
    {l : Literal} {p : Predicate} (collection : path.isCollectionValued = true)
    (h : ofCollection policy selector path r l = .ok p) : LeafOf policy path r l p := by
  simp only [ofCollection] at h
  split at h
  · rename_i ordering
    obtain ⟨v, read, rfl⟩ := withValue_eq_ok.mp h
    exact .size collection ordering read
  · rename_i equality
    split at h
    · cases h
    · rename_i plain
      split at h
      · rename_i pattern found
        cases h
        obtain ⟨text, equality, asked⟩ := patternFor?_eq_some found
        exact .like text equality asked
      · rename_i exact
        obtain ⟨v, read, rfl⟩ := withValue_eq_ok.mp h
        exact .contains collection (by simpa using plain) (by simpa using equality) exact read

/-- A comparison compiles to one leaf over the path that its selector stands for. -/
theorem leafOf_compile {scope : Scope} {c : Comparison} {p : Predicate}
    (h : c.compile scope = .ok p) :
    ∃ path, Path.resolve scope.graph scope.root scope.policy c.selector = .ok path ∧
      LeafOf scope.policy path c.relation c.argument p := by
  simp only [Comparison.compile, ofComparison] at h
  split at h
  · cases h
  · rename_i path resolved
    refine ⟨path, resolved, ?_⟩
    split at h
    · rename_i collection
      exact leafOf_ofCollection collection h
    · rename_i single
      exact leafOf_ofSingle (by simpa using single) h

/-- A comparison compiles to whatever leaf its parts make. -/
theorem compile_of_leafOf {scope : Scope} {c : Comparison} {path : Path} {p : Predicate}
    (resolved : Path.resolve scope.graph scope.root scope.policy c.selector = .ok path)
    (leaf : LeafOf scope.policy path c.relation c.argument p) : c.compile scope = .ok p := by
  simp only [Comparison.compile, ofComparison, resolved]
  cases leaf with
  | like text equality asked =>
    simp [ofCollection, ofSingle, patternFor?, text, equality, asked, AttributeType.isEntity,
      AttributeType.entityName?]
  | compare single plain ordered exact read =>
    have supported : ¬ (c.relation.isOrdering = true ∧ path.target.type.isOrdered = false) := by
      rintro ⟨ordering, unordered⟩
      rw [ordered ordering] at unordered
      cases unordered
    simp [ofSingle, withValue, single, plain, exact, read, supported]
  | contains collection plain equality exact read =>
    simp [ofCollection, withValue, collection, plain, equality, exact, read]
  | size collection ordering read => simp [ofCollection, withValue, collection, ordering, read]

theorem compile_eq_ok {scope : Scope} {c : Comparison} {p : Predicate} :
    c.compile scope = .ok p ↔
      ∃ path, Path.resolve scope.graph scope.root scope.policy c.selector = .ok path ∧
        LeafOf scope.policy path c.relation c.argument p :=
  ⟨leafOf_compile, fun ⟨_, resolved, leaf⟩ => compile_of_leafOf resolved leaf⟩

theorem patternFor?_congr {policy policy' : Policy}
    (wildcard : policy.alwaysWildcard = policy'.alwaysWildcard) (path : Path) (r : Relation)
    (l : Literal) : patternFor? policy path r l = patternFor? policy' path r l := by
  simp only [patternFor?, wildcard]

/-- Of the policy a leaf depends on nothing but how text is compared. -/
theorem LeafOf.congr {policy policy' : Policy} {path : Path} {r : Relation} {l : Literal}
    {p : Predicate} (wildcard : policy.alwaysWildcard = policy'.alwaysWildcard)
    (h : LeafOf policy path r l p) : LeafOf policy' path r l p := by
  have pattern := patternFor?_congr wildcard path r l
  cases h with
  | like text equality asked => exact .like text equality (wildcard ▸ asked)
  | compare single plain ordered exact read =>
    exact .compare single plain ordered (pattern ▸ exact) read
  | contains collection plain equality exact read =>
    exact .contains collection plain equality (pattern ▸ exact) read
  | size collection ordering read => exact .size collection ordering read

theorem LeafOf.leaves_eq {policy : Policy} {path : Path} {r : Relation} {l : Literal}
    {p : Predicate} (h : LeafOf policy path r l p) : p.leaves = [p] := by
  cases h <;> rfl

/-- Compiling a tree is compiling its comparisons in their order: with the same leaves, or with the
error of the first that fails. -/
theorem map_leaves_ofTree (scope : Scope) (e : Expression) :
    (ofTree scope e).map leaves = e.comparisons.mapM (Comparison.compile scope) := by
  induction e with
  | comparison s r l =>
    simp only [ofTree, Expression.comparisons, List.mapM_cons, List.mapM_nil]
    cases h : Comparison.compile scope ⟨s, r, l⟩ with
    | error x =>
      simp only [Comparison.compile] at h
      rw [h]
      rfl
    | ok p =>
      obtain ⟨path, _, leaf⟩ := leafOf_compile h
      simp only [Comparison.compile] at h
      rw [h]
      simp [Except.map, leaf.leaves_eq, pure, Except.pure, bind, Except.bind]
  | joined c a b iha ihb =>
    simp only [ofTree, Expression.comparisons, List.mapM_append, ← iha, ← ihb]
    cases ofTree scope a with
    | error x => rfl
    | ok p =>
      cases ofTree scope b with
      | error x => rfl
      | ok q => simp [Except.map, leaves_compose, pure, Except.pure, bind, Except.bind]

/-- Of a scope a comparison sees only what its selector resolves to, and how text is compared. -/
theorem ofComparison_congr {scope scope' : Scope} {s : String} {r : Relation} {l : Literal}
    (wildcard : scope.policy.alwaysWildcard = scope'.policy.alwaysWildcard)
    (resolved : Path.resolve scope.graph scope.root scope.policy s =
      Path.resolve scope'.graph scope'.root scope'.policy s) :
    ofComparison scope s r l = ofComparison scope' s r l := by
  simp only [ofComparison, ofCollection, ofSingle, resolved, patternFor?_congr wildcard]

/-- A tree is compiled through its comparisons alone. -/
theorem ofTree_congr {scope scope' : Scope} {e : Expression}
    (h : ∀ c ∈ e.comparisons, c.compile scope = c.compile scope') :
    ofTree scope e = ofTree scope' e := by
  induction e with
  | comparison s r l => exact h _ (List.mem_singleton_self _)
  | joined c a b iha ihb =>
    rw [ofTree, ofTree, iha fun d hd => h d (List.mem_append_left _ hd),
      ihb fun d hd => h d (List.mem_append_right _ hd)]

theorem ofTree_joined {scope : Scope} {c : Connector} {a b : Expression} {p q : Predicate}
    (left : ofTree scope a = .ok p) (right : ofTree scope b = .ok q) :
    ofTree scope (.joined c a b) = .ok (compose c p q) := by
  rw [ofTree, left, right]
  rfl

theorem ofTree_of_ofExpression {scope : Scope} {e : Expression} {p : Predicate}
    (h : ofExpression scope e = .ok p) : ofTree scope e = .ok p := by
  rw [ofExpression] at h
  split at h
  · cases h
  · exact h

/-- Every leaf of a compiled predicate is what some comparison was compiled to. -/
theorem comparison_of_leaf {scope : Scope} {e : Expression} {p leaf : Predicate}
    (h : ofExpression scope e = .ok p) (mem : leaf ∈ p.leaves) :
    ∃ c ∈ e.comparisons, c.compile scope = .ok leaf := by
  have all := map_leaves_ofTree scope e
  rw [ofTree_of_ofExpression h] at all
  exact mapM_ok_mem all.symm leaf mem

theorem ofQuery_eq_ok {scope : Scope} {query : String} {p : Predicate} :
    ofQuery scope query = .ok p ↔
      ∃ e, Expression.ofQuery query = .ok e ∧ ofExpression scope e = .ok p := by
  unfold ofQuery
  cases Expression.ofQuery query with
  | error x => simp
  | ok e => cases compiled : ofExpression scope e <;> simp [compiled, Except.mapError]

/-- Only collections are counted by what is compiled. -/
theorem collection_of_size {scope : Scope} {e : Expression} {p : Predicate}
    (h : ofExpression scope e = .ok p) {path : Path} {r : Relation} {v : Value}
    (mem : size path r v ∈ p.leaves) : path.isCollectionValued = true := by
  obtain ⟨c, _, compiled⟩ := comparison_of_leaf h mem
  obtain ⟨_, _, leaf⟩ := leafOf_compile compiled
  cases leaf with
  | size collection => exact collection

/-- The paths of a compiled tree are what its selectors resolve to, in their order. -/
theorem mapM_resolve_leaves {scope : Scope} {e : Expression} {p : Predicate}
    (h : ofTree scope e = .ok p) :
    e.leaves.mapM (Path.resolve scope.graph scope.root scope.policy) = .ok p.paths := by
  induction e generalizing p with
  | comparison s r l =>
    obtain ⟨path, resolved, leaf⟩ := leafOf_compile (c := ⟨s, r, l⟩) h
    have single : p.paths = [path] := by cases leaf <;> rfl
    simp [Expression.leaves, resolved, single, pure, Except.pure, bind, Except.bind]
  | joined c a b iha ihb =>
    obtain ⟨p, hp, h⟩ := bind_eq_ok.mp h
    obtain ⟨q, hq, h⟩ := bind_eq_ok.mp h
    cases h
    have paths : (compose c p q).paths = p.paths ++ q.paths := by cases c <;> rfl
    simp [Expression.leaves, iha hp, ihb hq, paths, pure, Except.pure, bind, Except.bind]

/-- Whichever truth decides a connector, it fails as one of its operands does. -/
theorem error_of_connected {x y : Outcome} {decides : Truth} {join : Truth → Truth → Truth}
    {e : ExecutionError}
    (h : (do let t ← x; if t = decides then .ok decides else y.map (join t)) = .error e) :
    x = .error e ∨ y = .error e := by
  rcases bind_eq_error.mp h with hx | ⟨t, _, h⟩
  · exact .inl hx
  · split at h
    · cases h
    · exact .inr (map_eq_error.mp h)

/-- A join that its left operand decides is worth what the right one would have made of it. -/
theorem truth_of_connected {x y : Outcome} {decides : Truth} {join : Truth → Truth → Truth}
    (absorbs : ∀ t, join decides t = decides) {a b u : Truth} (left : ∀ t, x = .ok t → t = a)
    (right : ∀ t, y = .ok t → t = b)
    (h : (do let t ← x; if t = decides then .ok decides else y.map (join t)) = .ok u) :
    u = join a b := by
  obtain ⟨t, hx, h⟩ := bind_eq_ok.mp h
  rw [← left t hx]
  split at h
  · rename_i decided
    cases h
    rw [decided, absorbs]
  · obtain ⟨v, hy, rfl⟩ := map_eq_ok.mp h
    rw [right v hy]

/-- Wherever a pattern is evaluated it is the same items that texts are matched with. -/
theorem evalLike_of_eval {engine : RegexEngine} {record record' : Json} {path : Path}
    {pattern : LikePattern} {negated : Bool} {t t' : Truth}
    (h : (like path pattern negated).eval engine record = .ok t)
    (h' : (like path pattern negated).eval engine record' = .ok t') :
    ∃ items, evalLike record path items negated = .ok t ∧
      evalLike record' path items negated = .ok t' := by
  obtain ⟨items, made, h⟩ := bind_eq_ok.mp h
  obtain ⟨_, made', h'⟩ := bind_eq_ok.mp h'
  cases made.symm.trans made'
  exact ⟨items, h, h'⟩

/-- A pattern of the predicate is refused by the engine, with the error. -/
def Refused (engine : RegexEngine) (p : Predicate) (x : ExecutionError) : Prop :=
  ∃ path pattern negated, like path pattern negated ∈ p.leaves ∧ pattern.compile engine = .error x

theorem Refused.mono {engine : RegexEngine} {p q : Predicate} {x : ExecutionError}
    (within : p.leaves ⊆ q.leaves) (h : p.Refused engine x) : q.Refused engine x := by
  obtain ⟨path, pattern, negated, mem, refused⟩ := h
  exact ⟨path, pattern, negated, within mem, refused⟩

theorem Refused.eq_pattern {engine : RegexEngine} {p : Predicate} {x : ExecutionError}
    (h : p.Refused engine x) : ∃ pattern reason, x = .pattern pattern reason := by
  obtain ⟨_, pattern, _, _, refused⟩ := h
  obtain ⟨reason, _, rfl⟩ := LikePattern.compile_eq_error.mp refused
  exact ⟨_, _, rfl⟩

/-- A leaf whose pattern is refused fails before any text is looked at. -/
theorem Refused.eval_like {engine : RegexEngine} {path : Path} {pattern : LikePattern}
    {negated : Bool} {x : ExecutionError} (h : (like path pattern negated).Refused engine x)
    (record : Json) : (like path pattern negated).eval engine record = .error x := by
  obtain ⟨_, _, _, mem, refused⟩ := h
  cases List.mem_singleton.mp mem
  rw [eval, refused]
  rfl

/-- Evaluation comes to a pattern that is refused, which is all that keeps it from a truth. -/
def FailsAtPattern (engine : RegexEngine) (p : Predicate) (record : Json) : Prop :=
  ∃ x, p.Refused engine x ∧ p.eval engine record = .error x

theorem FailsAtPattern.ne_ok {engine : RegexEngine} {p : Predicate} {record : Json}
    (h : p.FailsAtPattern engine record) (t : Truth) : p.eval engine record ≠ .ok t := by
  obtain ⟨x, _, fails⟩ := h
  rw [fails]
  exact nofun

/-- A predicate fails only as one of its leaves does. -/
theorem leaf_of_eval_error {engine : RegexEngine} {record : Json} {p : Predicate} {x : ExecutionError}
    (h : p.eval engine record = .error x) : ∃ leaf ∈ p.leaves, leaf.eval engine record = .error x := by
  induction p with
  | and p q ihp ihq | or p q ihp ihq =>
    rcases error_of_connected h with h | h
    · obtain ⟨leaf, mem, he⟩ := ihp h
      exact ⟨leaf, List.mem_append_left _ mem, he⟩
    · obtain ⟨leaf, mem, he⟩ := ihq h
      exact ⟨leaf, List.mem_append_right _ mem, he⟩
  | not p ih => exact ih (map_eq_error.mp h)
  | compare | like | contains | size => exact ⟨_, List.mem_singleton_self _, h⟩

end Predicate

end EntityFilter

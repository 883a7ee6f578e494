import EntityFilter.Proofs.Clinic
import EntityFilter.Proofs.RefusedPatterns
import EntityFilter.Proofs.Replacement

namespace EntityFilter

/-- The text as typed between two stars, in quotes. -/
def Literal.starred (l : Literal) : Literal :=
  .ofQuoted (String.ofList ('*' :: l.verbatim.toList ++ ['*']))

namespace LikePattern

def around (glob : List Char) : LikePattern := ofGlob ('*' :: glob ++ ['*'])

theorem ofLiteral?_starred (l : Literal) :
    ofLiteral? l.starred false = some (around l.verbatim.toList) := by
  simp [ofLiteral?, around, Literal.starred, Literal.hasWildcard, Literal.verbatim,
    Literal.suffixText, Literal.ofQuoted]

theorem trimStars_eq_self {cs : List Char} (first : cs.head? ≠ some '*')
    (last : cs.getLast? ≠ some '*') : trimStars cs = cs := by
  have front : cs.dropWhile (· == '*') = cs := by
    cases cs with
    | nil => rfl
    | cons c cs => exact List.dropWhile_cons_of_neg (by simpa using first)
  have back : cs.rdropWhile (· == '*') = cs := by
    rw [List.rdropWhile_eq_self_iff]
    intro nonempty
    simpa [List.getLast?_eq_getLast_of_ne_nil nonempty] using last
  have ends : trimStars cs = (cs.dropWhile (· == '*')).rdropWhile (· == '*') := rfl
  rw [ends, front, back]

/-- Without stars at its ends a glob is asked for as a part by putting stars around it. -/
theorem containing_eq_around {glob : List Char} (nonempty : glob ≠ [])
    (first : glob.head? ≠ some '*') (last : glob.getLast? ≠ some '*') :
    containing glob = around glob := by
  rw [containing, trimStars_eq_self first last]
  exact if_neg (by simpa using nonempty)

/-- With stars at its ends it makes another pattern, which matches the same. -/
theorem matchesAll_containing (glob text : List Char) :
    LikeItem.matchesAll (containing glob).items text =
      LikeItem.matchesAll (around glob).items text := by
  rw [Bool.eq_iff_iff, LikeItem.matchesAll_iff, LikeItem.matchesAll_iff, matches_containing_iff,
    around, matches_ofGlob_iff, Glob.Part.iff_glob]

end LikePattern

/-- Whether the comparison asks for equality with text. -/
def Comparison.asksText (scope : Scope) (c : Comparison) : Bool :=
  match Path.resolve scope.graph scope.root scope.policy c.selector with
  | .ok path => path.target.type == .string && !c.relation.isOrdering
  | .error _ => false

def Comparison.starred (scope : Scope) (c : Comparison) : Comparison :=
  if c.asksText scope then { c with argument := c.argument.starred } else c

/-- The tree with stars around the literals that text is compared with for equality. -/
def Expression.starred (scope : Scope) (e : Expression) : Expression :=
  e.replace (Comparison.starred scope)

/-- The scope in which a literal asks for the whole of a text. -/
def Scope.exact (scope : Scope) : Scope :=
  { scope with policy := { scope.policy with alwaysWildcard := false } }

namespace Predicate

open Fallible

/-- The same outcome, but for errors of which it does not matter where they turn up. -/
def SameBut (F F' : ExecutionError → Prop) (o o' : Outcome) : Prop :=
  o = o' ∨ (∃ x, F x ∧ o = .error x) ∨ ∃ x, F' x ∧ o' = .error x

namespace SameBut

variable {F F' G G' : ExecutionError → Prop} {x x' y y' : Outcome}

theorem mono (h : SameBut F F' x x') (left : ∀ e, F e → G e) (right : ∀ e, F' e → G' e) :
    SameBut G G' x x' :=
  h.imp id (.imp (.imp fun _ => .imp (left _) id) (.imp fun _ => .imp (right _) id))

theorem map (h : SameBut F F' x x') (f : Truth → Truth) : SameBut F F' (x.map f) (x'.map f) := by
  rcases h with rfl | ⟨e, fails, rfl⟩ | ⟨e, fails, rfl⟩
  · exact .inl rfl
  · exact .inr (.inl ⟨e, fails, rfl⟩)
  · exact .inr (.inr ⟨e, fails, rfl⟩)

/-- Operands that are the same but for refused patterns join to the same, but for these. -/
theorem connected (decides : Truth) (join : Truth → Truth → Truth) (left : SameBut F F' x x')
    (right : SameBut F F' y y') :
    SameBut F F' (do let t ← x; if t = decides then .ok decides else y.map (join t))
      (do let t ← x'; if t = decides then .ok decides else y'.map (join t)) := by
  rcases left with rfl | ⟨e, fails, rfl⟩ | ⟨e, fails, rfl⟩
  · cases x with
    | error e => exact .inl rfl
    | ok t =>
      by_cases decided : t = decides
      · exact .inl (by simp [bind, Except.bind, decided])
      · simpa [bind, Except.bind, decided] using right.map (join t)
  · exact .inr (.inl ⟨e, fails, rfl⟩)
  · exact .inr (.inr ⟨e, fails, rfl⟩)

end SameBut

/-- `Repatterned alike p q`: what differs are patterns only, and those in the same place are alike.
-/
inductive Repatterned (alike : LikePattern → LikePattern → Prop) : Predicate → Predicate → Prop
    where
  | and {p p' q q' : Predicate} (left : Repatterned alike p p') (right : Repatterned alike q q') :
    Repatterned alike (.and p q) (.and p' q')
  | or {p p' q q' : Predicate} (left : Repatterned alike p p') (right : Repatterned alike q q') :
    Repatterned alike (.or p q) (.or p' q')
  | not {p p' : Predicate} (inner : Repatterned alike p p') : Repatterned alike (.not p) (.not p')
  | compare (path : Path) (r : Relation) (v : Value) :
    Repatterned alike (.compare path r v) (.compare path r v)
  | like (path : Path) {pattern pattern' : LikePattern} (patterns : alike pattern pattern')
    (negated : Bool) : Repatterned alike (.like path pattern negated) (.like path pattern' negated)
  | contains (path : Path) (v : Value) (negated : Bool) :
    Repatterned alike (.contains path v negated) (.contains path v negated)
  | size (path : Path) (r : Relation) (v : Value) :
    Repatterned alike (.size path r v) (.size path r v)

namespace Repatterned

variable {alike other : LikePattern → LikePattern → Prop} {p p' q q' : Predicate}

theorem compose (c : Connector) (left : Repatterned alike p p') (right : Repatterned alike q q') :
    Repatterned alike (compose c p q) (compose c p' q') := by
  cases c with
  | and => exact .and left right
  | or => exact .or left right
  | nand => exact .and (.not left) (.not right)
  | nor => exact .or (.not left) (.not right)

theorem mono (weaker : ∀ pattern pattern', alike pattern pattern' → other pattern pattern')
    (h : Repatterned alike p q) : Repatterned other p q := by
  induction h with
  | and _ _ left right => exact .and left right
  | or _ _ left right => exact .or left right
  | not _ inner => exact .not inner
  | compare path r v => exact .compare path r v
  | like path patterns negated => exact .like path (weaker _ _ patterns) negated
  | contains path v negated => exact .contains path v negated
  | size path r v => exact .size path r v

theorem eq_of_eq (h : Repatterned Eq p q) : p = q := by
  induction h with
  | and _ _ left right | or _ _ left right => rw [left, right]
  | not _ inner => rw [inner]
  | like path patterns negated => rw [patterns]
  | compare | contains | size => rfl

theorem paths_eq (h : Repatterned alike p q) : p.paths = q.paths := by
  induction h with
  | and _ _ left right | or _ _ left right => rw [paths, paths, left, right]
  | not _ inner => exact inner
  | compare | like | contains | size => rfl

/-- Patterns that match the same texts are as good as each other, where both are compiled. -/
theorem eval_alike {engine : RegexEngine}
    (same : ∀ pattern pattern', alike pattern pattern' → ∀ text,
      LikeItem.matchesAll pattern.items text = LikeItem.matchesAll pattern'.items text)
    (h : Repatterned alike p q) (record : Json) :
    SameBut (p.Refused engine) (q.Refused engine) (p.eval engine record) (q.eval engine record) := by
  induction h with
  | and _ _ left right | or _ _ left right =>
    exact .connected _ _
      (left.mono (fun _ => .mono (List.subset_append_left ..))
        fun _ => .mono (List.subset_append_left ..))
      (right.mono (fun _ => .mono (List.subset_append_right ..))
        fun _ => .mono (List.subset_append_right ..))
  | not _ inner => exact inner.map Truth.not
  | @like path pattern pattern' patterns negated =>
    have tests : matchValue path pattern.items = matchValue path pattern'.items := by
      funext v
      cases v with
      | string s => exact congrArg Except.ok (same _ _ patterns s.toList)
      | _ => rfl
    have refused {p : LikePattern} {x : ExecutionError} (h : p.compile engine = .error x) :
        (Predicate.like path p negated).Refused engine x :=
      ⟨path, p, negated, List.mem_singleton_self _, h⟩
    rw [eval, eval]
    cases made : pattern.compile engine with
    | error x => exact .inr (.inl ⟨x, refused made, rfl⟩)
    | ok items =>
      cases made' : pattern'.compile engine with
      | error x => exact .inr (.inr ⟨x, refused made', rfl⟩)
      | ok items' =>
        rw [← (LikePattern.compile_eq_ok.mp made).2, ← (LikePattern.compile_eq_ok.mp made').2]
        simp only [bind, Except.bind, evalLike, tests]
        exact .inl rfl
  | compare | contains | size => exact .inl rfl

end Repatterned

/-- What differs are patterns only. -/
def SameShape : Predicate → Predicate → Prop := Repatterned fun _ _ => True

variable {scope : Scope}

/-- What is not asked of text compiles alike. -/
theorem compile_exact {c : Comparison} (other : c.asksText scope = false) :
    c.compile scope.exact = c.compile scope := by
  have resolve : Path.resolve scope.exact.graph scope.exact.root scope.exact.policy c.selector =
      Path.resolve scope.graph scope.root scope.policy c.selector := rfl
  simp only [Comparison.compile, ofComparison, resolve]
  cases resolved : Path.resolve scope.graph scope.root scope.policy c.selector with
  | error x => rfl
  | ok path =>
    simp only [Comparison.asksText, resolved] at other
    have none (policy : Policy) : patternFor? policy path c.relation c.argument = none := by
      rw [patternFor?, other]
      rfl
    simp only [ofCollection, ofSingle, none]

/-- Patterns for a part of a text and for stars around it, of a comparison in the tree. -/
def Widened (scope : Scope) (e : Expression) (pattern pattern' : LikePattern) : Prop :=
  ∃ c ∈ e.comparisons, c.asksText scope = true ∧
    .containing c.argument.verbatim.toList = pattern ∧ .around c.argument.verbatim.toList = pattern'

/-- Where every equality of text asks for a part of it, a comparison compiles to what it does
elsewhere with stars around its literal, but for the stars at the ends. -/
theorem compile_starred {e : Expression} {c : Comparison} {leaf : Predicate}
    (always : scope.policy.alwaysWildcard = true) (mem : c ∈ e.comparisons)
    (compiled : c.compile scope = .ok leaf) :
    ∃ leaf', (c.starred scope).compile scope.exact = .ok leaf' ∧
      Repatterned (Widened scope e) leaf leaf' := by
  cases asks : c.asksText scope with
  | false =>
    have same : c.starred scope = c := by simp [Comparison.starred, asks]
    rw [same, compile_exact asks]
    refine ⟨leaf, compiled, ?_⟩
    obtain ⟨path, resolved, made⟩ := leafOf_compile compiled
    cases made with
    | like text equality => simp [Comparison.asksText, resolved, text, equality] at asks
    | compare => exact .compare ..
    | contains => exact .contains ..
    | size => exact .size ..
  | true =>
    have starred : c.starred scope = { c with argument := c.argument.starred } := by
      simp [Comparison.starred, asks]
    obtain ⟨path, resolved, _⟩ := leafOf_compile compiled
    have text : path.target.type = .string ∧ c.relation.isOrdering = false := by
      simpa [Comparison.asksText, resolved] using asks
    have loose : LikePattern.ofLiteral? c.argument scope.policy.alwaysWildcard =
        some (.containing c.argument.verbatim.toList) := by
      rw [always]
      rfl
    rw [compile_of_leafOf resolved (.like text.1 text.2 loose)] at compiled
    cases compiled
    have tight : (c.starred scope).compile scope.exact =
        .ok (.like path (.around c.argument.verbatim.toList) (c.relation == .ne)) := by
      rw [starred]
      exact @compile_of_leafOf scope.exact { c with argument := c.argument.starred } path _ resolved
        (.like text.1 text.2 (LikePattern.ofLiteral?_starred _))
    exact ⟨_, tight, .like path ⟨c, mem, asks, rfl, rfl⟩ _⟩

/-- If every equality of text asks for a part of it, a tree that compiles does so elsewhere with
stars around those literals, to a predicate that differs in its patterns only and is worth the same
on every record, if on that record neither fails at a pattern that is refused. Nothing differs if no
such literal is empty or has a star at an end. -/
theorem ofExpression_starred (always : scope.policy.alwaysWildcard = true) {e : Expression}
    {p : Predicate} (compiled : ofExpression scope e = .ok p) :
    ∃ p', ofExpression scope.exact (e.starred scope) = .ok p' ∧
      p.SameShape p' ∧ p.paths = p'.paths ∧
      (∀ engine record, p.eval engine record = p'.eval engine record ∨
        p.FailsAtPattern engine record ∨ p'.FailsAtPattern engine record) ∧
      ((∀ c ∈ e.comparisons, c.asksText scope = true →
        c.argument.verbatim.toList ≠ [] ∧ c.argument.verbatim.toList.head? ≠ some '*' ∧
          c.argument.verbatim.toList.getLast? ≠ some '*') → p = p') := by
  obtain ⟨p', compiled', repatterned⟩ := ofExpression_replace_of_ok
    (fun c {_ _ _ _} left right => Repatterned.compose c left right)
    (fun c mem leaf => compile_starred always mem) compiled
  refine ⟨p', compiled', ?_, repatterned.paths_eq, ?_, ?_⟩
  · exact repatterned.mono fun _ _ _ => trivial
  · intro engine record
    refine repatterned.eval_alike (fun pattern pattern' widened text => ?_) record
    obtain ⟨c, _, _, rfl, rfl⟩ := widened
    exact LikePattern.matchesAll_containing _ text
  · intro plain
    refine (repatterned.mono fun pattern pattern' widened => ?_).eq_of_eq
    obtain ⟨c, mem, asks, rfl, rfl⟩ := widened
    obtain ⟨nonempty, first, last⟩ := plain c mem asks
    exact LikePattern.containing_eq_around nonempty first last

/-- Without stars of its own a literal gives the same pattern either way; with stars at its ends it
gives other patterns that match the same. -/
theorem ofExpression_starred_of_clinic :
    Clinic.loose.policy.alwaysWildcard = true ∧
      ofExpression Clinic.loose (Clinic.neighbours "n") = .ok (Clinic.neighboursPredicate "%n%") ∧
      ofExpression Clinic.loose.exact ((Clinic.neighbours "n").starred Clinic.loose) =
        .ok (Clinic.neighboursPredicate "%n%") ∧
      ofExpression Clinic.loose (Clinic.neighbours "*n*") = .ok (Clinic.neighboursPredicate "%n%") ∧
      ofExpression Clinic.loose.exact ((Clinic.neighbours "*n*").starred Clinic.loose) =
        .ok (Clinic.neighboursPredicate "%%n%%") ∧
      (Clinic.neighboursPredicate "%n%").SameShape (Clinic.neighboursPredicate "%%n%%") ∧
      (Clinic.neighboursPredicate "%n%").eval .standard Clinic.owner =
        (Clinic.neighboursPredicate "%%n%%").eval .standard Clinic.owner := by
  have always : Clinic.loose.policy.alwaysWildcard = true := rfl
  have plain : ofExpression Clinic.loose (Clinic.neighbours "n") =
      .ok (Clinic.neighboursPredicate "%n%") := by
    decide +kernel
  have without : ∀ c ∈ (Clinic.neighbours "n").comparisons, c.asksText Clinic.loose = true →
      c.argument.verbatim.toList ≠ [] ∧ c.argument.verbatim.toList.head? ≠ some '*' ∧
        c.argument.verbatim.toList.getLast? ≠ some '*' := by
    decide +kernel
  have between : ofExpression Clinic.loose (Clinic.neighbours "*n*") =
      .ok (Clinic.neighboursPredicate "%n%") := by
    decide +kernel
  have around : ofExpression Clinic.loose.exact ((Clinic.neighbours "*n*").starred Clinic.loose) =
      .ok (Clinic.neighboursPredicate "%%n%%") := by
    decide +kernel
  obtain ⟨p, compiled, _, _, _, equal⟩ := ofExpression_starred always plain
  rw [← equal without] at compiled
  obtain ⟨q, compiled', shape, _, evals, _⟩ := ofExpression_starred always between
  rw [around] at compiled'
  cases compiled'
  refine ⟨always, plain, compiled, between, around, shape, ?_⟩
  rcases evals .standard Clinic.owner with same | fails | fails
  · exact same
  · exact absurd (by decide +kernel) (fails.ne_ok .unknown)
  · exact absurd (by decide +kernel) (fails.ne_ok .unknown)

/-- Of a literal of stars alone no part is left to ask for, while the stars around it come on top.
-/
theorem ofExpression_stars (n : Nat) :
    ofExpression Clinic.loose (.comparison "town" .eq (.stars n)) =
        .ok (.like ⟨[], ⟨"city", .string, .single⟩⟩ (.ofGlob ['*']) false) ∧
      ofExpression Clinic.loose.exact
          (Expression.starred Clinic.loose (.comparison "town" .eq (.stars n))) =
        .ok (.like ⟨[], ⟨"city", .string, .single⟩⟩ (.ofGlob (List.replicate (n + 2) '*')) false) := by
  have resolved : Path.resolve Clinic.loose.graph Clinic.loose.root Clinic.loose.policy "town" =
      .ok ⟨[], ⟨"city", .string, .single⟩⟩ := by cbv
  have core : LikePattern.containing (List.replicate n '*') = .ofGlob ['*'] := by
    simp [LikePattern.containing, LikePattern.trimStars]
  have asked : LikePattern.ofLiteral? (.stars n) true = some (.ofGlob ['*']) := by
    simp [LikePattern.ofLiteral?, Literal.verbatim_stars, core]
  have around : LikePattern.around (List.replicate n '*') = .ofGlob (List.replicate (n + 2) '*') := by
    rw [LikePattern.around, List.replicate_succ, List.replicate_succ']
    rfl
  have asks : Comparison.asksText Clinic.loose ⟨"town", .eq, .stars n⟩ = true := by
    simp [Comparison.asksText, resolved, Relation.isOrdering]
  constructor
  · exact (ofExpression_alone ⟨"town", .eq, .stars n⟩).trans
      (compile_of_leafOf resolved (.like rfl rfl asked))
  · have starred : Expression.starred Clinic.loose (.comparison "town" .eq (.stars n)) =
        Comparison.alone ⟨"town", .eq, (Literal.stars n).starred⟩ := by
      simp [Expression.starred, Expression.replace, Comparison.starred, asks, Comparison.alone]
    rw [starred, ofExpression_alone, ← around, ← Literal.verbatim_stars]
    exact @compile_of_leafOf Clinic.loose.exact ⟨"town", .eq, (Literal.stars n).starred⟩ _ _ resolved
      (.like rfl rfl (LikePattern.ofLiteral?_starred _))

/-- A literal of stars alone asks for any text as a part, but with stars around it for a pattern of
all of them, which may be more than the engine compiles. -/
theorem starred_not_alike :
    ¬ ∀ (scope : Scope) (e : Expression) (p p' : Predicate) (record : Json),
      scope.policy.alwaysWildcard = true → ofExpression scope e = .ok p →
      ofExpression scope.exact (e.starred scope) = .ok p' →
      p.eval .standard record = p'.eval .standard record := by
  intro alike
  obtain ⟨loose, exact⟩ := ofExpression_stars 40000
  have same := alike _ _ _ _ (.object [("city", .string "Ghent")]) rfl loose exact
  have anyTown : (like ⟨[], ⟨"city", .string, .single⟩⟩ (.ofGlob ['*']) false).eval .standard
      (.object [("city", .string "Ghent")]) = .ok .true := by decide +kernel
  obtain ⟨x, fails⟩ := eval_stars (40000 + 2) (by decide) ⟨[], ⟨"city", .string, .single⟩⟩ false
    (.object [("city", .string "Ghent")])
  rw [anyTown, fails] at same
  cases same

end Predicate

end EntityFilter

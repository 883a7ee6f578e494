import EntityFilter.Proofs.Clinic
import EntityFilter.Proofs.Parsing
import EntityFilter.Proofs.Walks

namespace EntityFilter

open Fallible Lexeme

/-- A connector leaves its group as it is but for the operand that now waits, which joins the next
one when the group ends. -/
theorem ParseState.take_connector (c : Connector) (l : Expression) (outer : List Group)
    (position : Nat) :
    ∃ g, take ⟨.connector (.of l), .new, outer⟩ (.connector c) position =
        .ok ⟨.operand, g, outer⟩ ∧
      ∀ (r : Expression) (stage : Stage) (outer : List Group),
        (Expression.joined c l r).height ≤ maxDepth →
        closeGroup ⟨stage, g, outer⟩ (.of r) = .ok (.of (.joined c l r)) := by
  have joins : ∀ r : Expression, (Expression.joined c l r).height ≤ maxDepth →
      Pending.join? ⟨.of l, c, position⟩ (.of r) = .ok (.of (.joined c l r)) := by
    intro r shallow
    rw [Pending.join?, Operand.join_of]
    exact if_neg (Nat.not_lt.mpr shallow)
  cases ht : c.isTight with
  | true =>
    refine ⟨⟨none, some ⟨.of l, c, position⟩⟩, ?_, ?_⟩
    · simp [take, connect, ht, Group.new, joinPending, bind, Except.bind]
    · intro r stage outer shallow
      simp [closeGroup, joinPending, joins r shallow, bind, Except.bind]
  | false =>
    refine ⟨⟨some ⟨.of l, c, position⟩, none⟩, ?_, ?_⟩
    · simp [take, connect, ht, closeGroup, Group.new, joinPending, bind, Except.bind]
    · intro r stage outer shallow
      simp [closeGroup, joinPending, joins r shallow, bind, Except.bind]

namespace Expression

/-- The right operand of a join starts with no digit, so the left one ends at the connector. -/
theorem closes_connector (c : Connector) {e : Expression} (h : e.Printable) (rest : List Char) :
    Closes (c.symbol :: (grouped e e.chars ++ rest)) := by
  refine .connector c ?_
  cases e with
  | comparison s r a =>
    obtain ⟨d, ds, hs, hd⟩ := h.1.head
    simp [grouped, chars, hs, not_digit_of_isIdentifierStart hd]
  | joined c l r =>
    have : digit '(' = false := by decide
    simp [grouped, this]

/-- A printed comparison is taken as an operand, whatever closes it. -/
theorem advances_comparison {s : String} {r : Relation} {a : Literal}
    (h : (comparison s r a).Printable) (g : Group) (outer : List Group) (offset : Nat)
    {rest : List Char} (closes : Closes rest) :
    ∃ offset', Advances ⟨.operand, g, outer⟩
      ⟨(comparison s r a).chars ++ rest, offset, .selector⟩
      ⟨.connector (.of (comparison s r a)), g, outer⟩ ⟨rest, offset', .connector⟩ := by
  obtain ⟨selector, argument⟩ := h
  have chars : (comparison s r a).chars ++ rest =
      s.toList ++ (r.symbol.toList ++ (a.chars ++ rest)) := by
    simp [Expression.chars]
  rw [chars]
  obtain ⟨o₁, first⟩ := (Lexer.reads_selector selector (selectorRest_symbol r _)).advances
    ⟨.operand, g, outer⟩ offset rfl
  obtain ⟨o₂, second⟩ := (Lexer.reads_relation r _).advances ⟨.relation s, g, outer⟩ o₁ rfl
  obtain ⟨o₃, third⟩ := (Lexer.reads_argument argument closes).advances
    ⟨.argument s r, g, outer⟩ o₂ rfl
  exact ⟨o₃, (first.trans second).trans third⟩

/-- The text of the tree as an operand is read as that operand. -/
def ReadsOperand (e : Expression) : Prop :=
  ∀ (g : Group) (outer : List Group) (offset : Nat) (rest : List Char), Closes rest →
    outer.length + e.height < maxDepth →
    ∃ offset', Advances ⟨.operand, g, outer⟩ ⟨grouped e e.chars ++ rest, offset, .selector⟩
      ⟨.connector (.of e), g, outer⟩ ⟨rest, offset', .connector⟩

/-- The text of the tree is read as all of a group. -/
def ReadsGroup (e : Expression) : Prop :=
  ∀ (outer : List Group) (offset : Nat) (rest : List Char), Closes rest →
    outer.length + e.height ≤ maxDepth →
    ∃ x g offset', Advances ⟨.operand, .new, outer⟩ ⟨e.chars ++ rest, offset, .selector⟩
        ⟨.connector x, g, outer⟩ ⟨rest, offset', .connector⟩ ∧
      ParseState.closeGroup ⟨.connector x, g, outer⟩ x = .ok (.of e)

/-- An operand in parentheses is read as what is in them. -/
theorem readsOperand_of_readsGroup {e : Expression} (printable : e.Printable)
    (group : e.ReadsGroup) : e.ReadsOperand := by
  intro g outer offset rest closes shallow
  cases e with
  | comparison s r a => exact advances_comparison printable g outer offset closes
  | joined c l r =>
    have chars : grouped (joined c l r) (joined c l r).chars ++ rest =
        '(' :: ((joined c l r).chars ++ ')' :: rest) := by
      simp [grouped]
    have room : outer.length ≠ maxDepth := by omega
    have deeper : (g :: outer).length + (joined c l r).height ≤ maxDepth := by
      simp only [List.length_cons]
      omega
    rw [chars]
    obtain ⟨o₁, first⟩ := (Lexer.reads_opening _).advances ⟨.operand, g, outer⟩ offset
      (if_neg room)
    obtain ⟨x, g', o₂, second, closed⟩ := group (g :: outer) o₁ (')' :: rest) (.closing rest) deeper
    have taken : ParseState.take ⟨.connector x, g', g :: outer⟩ .closing o₂ =
        .ok ⟨.connector (.of (joined c l r)), g, outer⟩ := by
      simp only [ParseState.take, ParseState.close, closed]
      rfl
    obtain ⟨o₃, third⟩ := (Lexer.reads_closing rest).advances _ o₂ taken
    exact ⟨o₃, (first.trans second).trans third⟩

/-- Within a group a printed tree is read back as itself. Operands that are joins stand in
parentheses, so nothing joins across them. -/
theorem readsGroup {e : Expression} (printable : e.Printable) : e.ReadsGroup := by
  induction e with
  | comparison s r a =>
    intro outer offset rest closes shallow
    obtain ⟨o, read⟩ := advances_comparison printable .new outer offset closes
    exact ⟨_, _, o, read, rfl⟩
  | joined c l r left right =>
    intro outer offset rest closes shallow
    have leftRead := readsOperand_of_readsGroup printable.1 (left printable.1)
    have rightRead := readsOperand_of_readsGroup printable.2 (right printable.2)
    have chars : (joined c l r).chars ++ rest =
        grouped l l.chars ++ c.symbol :: (grouped r r.chars ++ rest) := by
      simp [Expression.chars]
    have height : (joined c l r).height = 1 + max l.height r.height := rfl
    rw [chars]
    obtain ⟨o₁, first⟩ := leftRead .new outer offset _ (closes_connector c printable.2 rest)
      (by omega)
    obtain ⟨g, taken, joins⟩ := ParseState.take_connector c l outer o₁
    obtain ⟨o₂, second⟩ := (Lexer.reads_connector c _).advances _ o₁ taken
    obtain ⟨o₃, third⟩ := rightRead g outer o₂ rest closes (by omega)
    exact ⟨_, g, o₃, (first.trans second).trans third, joins r _ outer (by omega)⟩

/-- Parsing what was printed gives the tree that was printed. -/
theorem ofQuery_display_of_printable {e : Expression} (printable : e.Printable)
    (shallow : e.height ≤ maxDepth) : ofQuery e.display = .ok e := by
  obtain ⟨x, g, offset, read, closed⟩ :=
    readsGroup printable [] 0 [] .finish (by simpa using shallow)
  obtain ⟨last, run⟩ := read.run_eq none
  have start : Lexer.ofQuery e.display = ⟨e.chars ++ [], 0, .selector⟩ := by
    simp [Lexer.ofQuery, display]
  have finish : ParseState.finish ⟨.connector x, g, []⟩ offset = .ok e := by
    simp only [ParseState.finish, closed]
    rfl
  rw [ofQuery_eq_ok, start]
  exact (congrArg Prod.fst run).trans finish

/-- Whatever was parsed can be printed so that it is parsed again. -/
theorem printable_of_ofQuery {query : String} {e : Expression} (h : ofQuery query = .ok e) :
    e.Printable ∧ e.height ≤ maxDepth := by
  rw [ofQuery_eq_ok] at h
  apply Parser.run_sound ParseState.start_sound _ h
  intro step hs t ht
  exact Lexer.printable_of_mem_stepsWithin hs ht

/-- A tree that can be printed is what its text is parsed as, if it is not too deep, and so is every
tree that was parsed. -/
theorem ofQuery_display :
    (∀ e : Expression, e.depth ≤ maxDepth → e.Printable → ofQuery e.display = .ok e) ∧
      ∀ (query : String) (e : Expression), ofQuery query = .ok e → ofQuery e.display = .ok e := by
  constructor
  · intro e shallow printable
    exact ofQuery_display_of_printable printable (e.depth_eq_height ▸ shallow)
  · intro query e h
    obtain ⟨printable, shallow⟩ := printable_of_ofQuery h
    exact ofQuery_display_of_printable printable shallow

/-- The point behind the first number is a connector, and a small suffix becomes a capital one. -/
theorem ofQuery_display_of_clinic :
    Clinic.residents.display = "(pets.age=ge=2.pets.weights=gt=1):town=='St. John\\'s'" ∧
      ofQuery Clinic.residents.display = .ok Clinic.residents ∧
      ofQuery " pets.age =ge= 2l" = .ok Clinic.grown ∧ Clinic.grown.display = "pets.age=ge=2L" ∧
      ofQuery Clinic.grown.display = .ok Clinic.grown := by
  have read : ofQuery Clinic.residents.display = .ok Clinic.residents :=
    ofQuery_display.1 Clinic.residents (by cbv) (by decide +kernel)
  have typed : ofQuery " pets.age =ge= 2l" = .ok Clinic.grown := by cbv
  exact ⟨by decide, read, typed, by decide, ofQuery_display.2 _ _ typed⟩

end Expression

end EntityFilter

import EntityFilter.Proofs.Sentences

namespace EntityFilter

open Fallible

def LexError.unplaced : LexError → LexError
  | unexpectedCharacter c _ e => unexpectedCharacter c 0 e
  | expectedRelation _ => expectedRelation 0
  | invalidArgument _ => invalidArgument 0
  | unterminatedString _ => unterminatedString 0
  | invalidEscape c _ => invalidEscape c 0

/-- The error without its position. -/
def ParseError.unplaced : ParseError → ParseError
  | lex e => lex e.unplaced
  | unexpected e t _ => unexpected e t 0
  | empty => empty
  | tooDeep _ => tooDeep 0

def Pending.unplaced (p : Pending) : Pending := { p with position := 0 }

def Group.unplaced (g : Group) : Group := ⟨g.loose.map .unplaced, g.tight.map .unplaced⟩

def ParseState.unplaced (s : ParseState) : ParseState :=
  ⟨s.stage, s.group.unplaced, s.outer.map .unplaced⟩

theorem Pending.join?_unplaced (p : Pending) (x : Operand) :
    p.unplaced.join? x = (p.join? x).mapError .unplaced := by
  obtain ⟨left, c, position⟩ := p
  change join? ⟨left, c, 0⟩ x = _
  by_cases deep : maxDepth < (left.join c x).levels
  · rw [join?, if_pos deep, join?, if_pos deep]
    rfl
  · rw [join?, if_neg deep, join?, if_neg deep]
    rfl

theorem joinPending_unplaced (p : Option Pending) (x : Operand) :
    joinPending (p.map .unplaced) x = (joinPending p x).mapError .unplaced := by
  cases p with
  | none => rfl
  | some p => exact p.join?_unplaced x

namespace ParseState

variable (s : ParseState) (x : Operand) (t : Token) (position : Nat)

theorem closeGroup_unplaced : s.unplaced.closeGroup x = (s.closeGroup x).mapError .unplaced := by
  simp only [closeGroup, mapError_bind, ← joinPending_unplaced]
  rfl

/-- A step apart from positions, its state and its error. -/
def erased (r : Except ParseError ParseState) : Except ParseError ParseState :=
  (r.mapError .unplaced).map unplaced

theorem erased_bind (r : Except ParseError Operand) (f : Operand → Except ParseError ParseState) :
    erased (r >>= f) = r.mapError .unplaced >>= fun x => erased (f x) := by
  cases r <;> rfl

theorem connect_unplaced (c : Connector) :
    s.unplaced.connect x c 0 = erased (s.connect x c position) := by
  unfold connect
  split
  · rw [erased_bind, ← joinPending_unplaced]
    rfl
  · rw [erased_bind, ← closeGroup_unplaced]
    rfl

theorem close_unplaced : s.unplaced.close x t 0 = erased (s.close x t position) := by
  unfold close
  rw [erased_bind, ← closeGroup_unplaced]
  congr 1
  funext y
  obtain ⟨stage, g, outer⟩ := s
  cases outer with
  | nil => rfl
  | cons g gs => cases t <;> rfl

/-- What a state makes of a token does not hang on where it stands. -/
theorem take_unplaced : s.unplaced.take t 0 = erased (s.take t position) := by
  obtain ⟨stage, g, outer⟩ := s
  cases stage with
  | operand =>
    cases t with
    | opening =>
      simp only [take, unplaced, List.length_map]
      split <;> rfl
    | _ => rfl
  | relation => cases t <;> rfl
  | argument => cases t <;> rfl
  | connector y =>
    cases t with
    | connector c => exact connect_unplaced _ y position c
    | _ => exact close_unplaced _ y _ position

theorem finish_unplaced : s.unplaced.finish 0 = (s.finish position).mapError .unplaced := by
  obtain ⟨stage, g, outer⟩ := s
  cases stage with
  | connector y =>
    simp only [finish, mapError_bind]
    rw [← closeGroup_unplaced]
    cases outer <;> rfl
  | _ => rfl

/-- A run without positions is the run with its positions left out. -/
theorem takeAll_unplaced (located : List (Token × Nat)) :
    s.unplaced.takeAll (located.map fun t => (t.1, 0)) = erased (s.takeAll located) := by
  induction located generalizing s with
  | nil => rfl
  | cons t located ih =>
    rw [List.map_cons, takeAll_cons, takeAll_cons, take_unplaced s t.1 t.2]
    cases s.take t.1 t.2 with
    | error e => rfl
    | ok s' => exact ih s'

end ParseState

namespace Expression

/-- What the tokens of a query are parsed to, wherever they stand in it. -/
def ofTokens (ts : List Token) : Except ParseError Expression :=
  if ts = [] then .error .empty
  else ParseState.start.takeAll (ts.map fun t => (t, 0)) >>= fun s => s.finish 0

/-- The tokens of a query settle its tree, and where it has none the error up to the position. -/
theorem ofQuery_unplaced {query : String} {ts : List Token} (h : Lexes (Lexer.ofQuery query) ts) :
    (ofQuery query).mapError .unplaced = ofTokens ts := by
  by_cases empty : ts = []
  · subst empty
    cases h with
    | finish ended =>
      unfold ofQuery Parser.ofLexer
      rw [ended]
      rfl
  · obtain ⟨located, stop, tokens, run⟩ := h.run_ofQuery
    have erased := ParseState.takeAll_unplaced .start located
    have start : ParseState.start.unplaced = .start := rfl
    rw [ofQuery_eq_run h empty, run, ofTokens, if_neg empty, ← tokens, List.map_map]
    rw [start] at erased
    change _ = ParseState.start.takeAll (located.map fun t => (t.1, 0)) >>= _
    rw [erased]
    cases ParseState.start.takeAll located with
    | error e => rfl
    | ok s => exact (s.finish_unplaced stop).symm

end Expression

end EntityFilter

import EntityFilter.Proofs.Placement

namespace EntityFilter

/-- What is expected, and what is found in its place. -/
inductive Unmet : Expected → Option Token → Prop where
  | operand : Unmet .operand none
  | relation : Unmet .relation none
  | argument : Unmet .argument none
  | closing : Unmet .closing none
  | finish : Unmet .finish (some .closing)

namespace Expression

/-- The lexer reads in the mode of what the parser asks for, so a token that was read is in its
place unless it is a parenthesis that closes no group. Whatever else is missing is missing where the
input ends. -/
theorem unmet_of_ofQuery {query : String} {x : Expected} {found : Option Token} {position : Nat}
    (h : ofQuery query = .error (.unexpected x found position)) : Unmet x found := by
  rcases ofQuery_reports h with empty | ⟨_, lex⟩ | ⟨ts, k, _, reports⟩
  · cases empty
  · cases lex
  · cases reports with
    | missing s =>
      obtain ⟨stage, _, _⟩ := s
      cases stage with
      | operand => exact .operand
      | relation => exact .relation
      | argument => exact .argument
      | connector => exact .closing
    | closing => exact .finish

/-- Parsing a query is the first call of its parser. What such a call can report as unexpected is
the end of the input where there has to be an operand, a relation, an argument or the end of a
group, and the end of a group that was not opened. All of these are reported for some query, and no
other token is for any. -/
theorem ofQuery_unexpected_iff (x : Expected) (found : Option Token) :
    (∃ query position, ofQuery query = .error (.unexpected x found position)) ↔ Unmet x found := by
  constructor
  · rintro ⟨query, position, failed⟩
    exact unmet_of_ofQuery failed
  · intro unmet
    cases unmet with
    | operand => exact ⟨"(", 1, by cbv⟩
    | relation => exact ⟨"town", 4, by cbv⟩
    | argument => exact ⟨"town==", 6, by cbv⟩
    | closing => exact ⟨"(town==Ghent", 12, by cbv⟩
    | finish => exact ⟨"town==Ghent)", 11, by cbv⟩

/-- A later call can meet what the first one has left. -/
example : (Parser.ofLexer (.ofQuery "town==Ghent,$")).map (fun p => (p.after 1).parse.1) =
    .ok (.error (.unexpected .operand (some (.connector .and)) 12)) := by cbv

end Expression

end EntityFilter

import EntityFilter.Proofs.Continuation

namespace EntityFilter

open Fallible Text

/-- The mode for what comes next. -/
def Stage.mode : Stage → LexMode
  | operand => .selector
  | relation _ => .relation
  | argument _ _ => .argument
  | connector _ => .connector

namespace Lexer

variable {l l' : Lexer} {t : Token}

/-- A token is one of the mode, and begins behind the blanks. -/
theorem next_starts (h : l.next = (.ok (some t), l')) :
    t.mode = l.mode ∧ ∃ c cs, trimBlanks l.rest = c :: cs ∧ t.Starts c := by
  obtain ⟨text, inMode, _, spelled, whole, _⟩ := next_consumes h
  obtain ⟨c, cs, rfl⟩ := List.exists_cons_of_ne_nil spelled.ne_nil
  exact ⟨inMode, c, cs ++ l'.rest, whole.symm, spelled.starts⟩

end Lexer

namespace ParseState

variable {s s' : ParseState} {t : Token} {position : Nat} {e : ParseError}

/-- Behind a token that was taken there comes what the lexer is in the mode for. -/
theorem take_mode (h : s.take t position = .ok s') : s'.stage.mode = t.nextMode := by
  unfold take at h
  split at h
  · split at h <;> cases h
    rfl
  · cases h
    rfl
  · cases h
  · cases h
    rfl
  · cases h
  · cases h
    rfl
  · cases h
  · unfold connect at h
    split at h
    · obtain ⟨_, _, h⟩ := bind_eq_ok.mp h
      cases h
      rfl
    · obtain ⟨_, _, h⟩ := bind_eq_ok.mp h
      cases h
      rfl
  · obtain ⟨_, _, h⟩ := bind_eq_ok.mp h
    split at h <;> cases h
    rfl

/-- A token that comes in its mode is refused only where it opens a group or stands behind an
operand. -/
theorem mode_of_refused (inMode : t.mode = s.stage.mode) (h : s.take t position = .error e) :
    s.opens t = true ∨ t.mode = .connector := by
  obtain ⟨stage, g, gs⟩ := s
  cases stage with
  | operand =>
    cases t with
    | opening => exact .inl rfl
    | selector => cases h
    | _ => cases inMode
  | relation =>
    cases t with
    | relation => cases h
    | _ => cases inMode
  | argument =>
    cases t with
    | argument => cases h
    | _ => cases inMode
  | connector => exact .inr inMode

end ParseState

/-- The parser stands in the grammar where the lexer stands in its modes. -/
theorem Advances.mode_eq {s s' : ParseState} {l l' : Lexer} (h : Advances s l s' l')
    (inMode : l.mode = s.stage.mode) : l'.mode = s'.stage.mode := by
  induction h with
  | refl => exact inMode
  | step read taken _ ih =>
    have behind := (Lexer.next_leaves read).1
    exact ih (behind.trans (ParseState.take_mode taken).symm)

/-- What a run comes to where it takes no further token, and the parser it leaves. -/
inductive Parser.Ends (s : ParseState) (last : Option Token) (l : Lexer) :
    Except ParseError Expression × Parser → Prop where
  | finished {l' : Lexer} (ended : l.next = (.ok none, l')) (nesting : Nat) :
    Ends s last l (s.finish l.offset, ⟨l', none, l.offset, nesting⟩)
  | unread {l' : Lexer} {x : LexError} (failed : l.next = (.error x, l')) (nesting : Nat) :
    Ends s last l (.error (.lex x), ⟨l', last.bind Token.held, l.offset, nesting⟩)
  | refused {l' : Lexer} {t : Token} {e : ParseError} (read : l.next = (.ok (some t), l'))
    (refused : s.take t l.offset = .error e) (nesting : Nat) :
    Ends s last l (.error e, ⟨l', if s.opens t then none else some t, l.offset, nesting⟩)

/-- A run advances as far as it can. -/
theorem Parser.run_ends (s : ParseState) (last : Option Token) (l : Lexer) :
    ∃ s' last' l', Advances s l s' l' ∧ Ends s' last' l' (run 0 s last l l.steps) := by
  induction hn : l.rest.length using Nat.strong_induction_on generalizing s last l with
  | _ n ih =>
    cases h : l.next with
    | mk outcome l' =>
      cases outcome with
      | error x =>
        refine ⟨s, last, l, .refl s l, ?_⟩
        rw [Lexer.steps_of_error h]
        exact .unread h _
      | ok token =>
        cases token with
        | none =>
          refine ⟨s, last, l, .refl s l, ?_⟩
          rw [Lexer.steps_of_end h, run, h]
          exact .finished h _
        | some t =>
          rw [Lexer.steps_of_next h, run]
          cases taken : s.take t l.offset with
          | error e =>
            refine ⟨s, last, l, .refl s l, ?_⟩
            rw [proceed_of_error taken]
            exact .refused h taken _
          | ok s' =>
            have shorter := (Lexer.next_eq_ok h).1
            obtain ⟨s₁, last₁, l₁, advances, ends⟩ := ih _ (by omega) s' (some t) l' rfl
            rw [proceed_of_ok taken]
            exact ⟨s₁, last₁, l₁, .step h taken advances, ends⟩

/-- What the first call of a parser comes to. -/
theorem Parser.parse_ends {l l' : Lexer} {t : Token} (read : l.next = (.ok (some t), l')) :
    ∃ s last k, Advances .start l s k ∧ Ends s last k (parse ⟨l', some t, l.offset, 0⟩) := by
  rw [parse_eq_run read none]
  exact run_ends .start none l

namespace Parser

/-- Nothing can be parsed any more: the token that is left starts no operand. -/
def Spent (p : Parser) : Prop := ∀ t ∈ p.current, t.mode ≠ .selector

/-- Every later call leaves the parser as it is, with the same error. -/
theorem Spent.parse {p : Parser} (h : p.Spent) : ∃ e, p.parse = (.error e, p) := by
  obtain ⟨l, current, position, nesting⟩ := p
  cases current with
  | none => exact ⟨.empty, rfl⟩
  | some t =>
    have later : t.mode ≠ .selector := h t rfl
    cases t with
    | selector => exact absurd rfl later
    | opening => exact absurd rfl later
    | _ => exact ⟨_, rfl⟩

theorem mode_of_held {t t' : Token} (h : t.held = some t') : t'.mode ≠ .selector := by
  cases t <;> cases h <;> nofun

/-- What is left of a parser behind a call starts no operand. -/
theorem Ends.spent {s : ParseState} {last : Option Token} {l : Lexer}
    {result : Except ParseError Expression × Parser} (h : Ends s last l result)
    (inMode : l.mode = s.stage.mode) : result.2.Spent := by
  cases h with
  | finished => nofun
  | unread =>
    intro t ht
    obtain ⟨t', _, held⟩ := Option.bind_eq_some_iff.mp ht
    exact mode_of_held held
  | @refused _ t _ read refused =>
    intro t' ht
    have kept : (if s.opens t then none else some t) = some t' := ht
    split at kept
    · cases kept
    · rename_i opens
      cases kept
      have behind := ParseState.mode_of_refused ((Lexer.next_starts read).1.trans inMode) refused
      have mode := behind.resolve_left opens
      rw [mode]
      nofun

/-- A parser is spent after its first call. -/
theorem spent_parse {l : Lexer} {p : Parser} (made : ofLexer l = .ok p) : p.parse.2.Spent := by
  unfold ofLexer at made
  split at made
  · cases made
  · rename_i current l' read
    cases made
    cases current with
    | none => nofun
    | some t =>
      by_cases inMode : l.mode = .selector
      · obtain ⟨s, last, k, advances, ends⟩ := parse_ends read
        exact ends.spent (advances.mode_eq inMode)
      · -- A lexer that is not at the start of an operand gives a token that is refused and stays.
        have spent : Spent ⟨l', some t, l.offset, 0⟩ := by
          rintro _ ⟨⟩
          exact (Lexer.next_starts read).1 ▸ inMode
        obtain ⟨e, same⟩ := spent.parse
        rw [same]
        exact spent

/-- The parser after `n` calls. -/
def after (p : Parser) : Nat → Parser
  | 0 => p
  | n + 1 => (p.after n).parse.2

/-- Only the first call of a parser can give a tree. Whatever it gives, each call after it fails
with one and the same error and leaves the parser as it is, its lexer included. -/
theorem parse_settles {l : Lexer} {p : Parser} (made : ofLexer l = .ok p) :
    ∃ e, ∀ n, (p.after (n + 1)).parse = (.error e, p.after (n + 1)) := by
  obtain ⟨e, same⟩ := (spent_parse made).parse
  refine ⟨e, fun n => ?_⟩
  induction n with
  | zero => exact same
  | succ n ih =>
    have still : (p.after (n + 1)).parse.2 = p.after (n + 1) := by
      rw [ih]
    rw [after, still]
    exact ih

/-- Behind the first group stands what no connector joins to it, and it is not read as a filter
of its own. -/
theorem parse_settles_of_clinic :
    ∃ p, ofLexer (.ofQuery "(town==Ghent) town=='St. John'") = .ok p ∧
      p.parse.1 = .error (.lex (.unexpectedCharacter 't' 14 .connector)) ∧
      ∃ e, ∀ n, (p.after (n + 1)).parse = (.error e, p.after (n + 1)) := by
  have made : ofLexer (.ofQuery "(town==Ghent) town=='St. John'") =
      .ok ⟨⟨"town==Ghent) town=='St. John'".toList, 1, .selector⟩, some .opening, 0, 0⟩ := by cbv
  exact ⟨_, made, by cbv, parse_settles made⟩

end Parser

end EntityFilter

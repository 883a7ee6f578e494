import EntityFilter.Query.Parser
import EntityFilter.Proofs.Fallible
import EntityFilter.Proofs.Lexing

namespace EntityFilter

open Fallible

def Operand.of (e : Expression) : Operand := ⟨e, e.height, rfl⟩

theorem Operand.join_of (c : Connector) (l r : Expression) :
    (of l).join c (of r) = of (.joined c l r) := rfl

namespace Parser

variable {s s' : ParseState} {t : Token} {position : Nat} {l : Lexer}
  {further : ParseState → Except ParseError Expression × Parser}

/-- In a parser that has not failed a state takes its tokens by itself. -/
theorem take_zero (s : ParseState) (t : Token) (position : Nat) :
    take 0 s t position = s.take t position := by
  unfold take
  split
  · rename_i full
    obtain ⟨opens, full⟩ := full
    unfold ParseState.opens at opens
    split at opens
    · rename_i here
      simp only [ParseState.take, here]
      exact (if_pos (by omega)).symm
    · cases opens
  · rfl

theorem proceed_of_ok (taken : s.take t position = .ok s') :
    proceed 0 s t position l further = further s' := by
  rw [proceed, take_zero, taken]

theorem proceed_of_error {e : ParseError} (refused : s.take t position = .error e) :
    proceed 0 s t position l further =
      (.error e, ⟨l, if s.opens t then none else some t, position, 0 + s.outer.length⟩) := by
  rw [proceed, take_zero, refused]

end Parser

/-- Parser and lexer come from one state to another by reading tokens. -/
inductive Advances : ParseState → Lexer → ParseState → Lexer → Prop where
  | refl (s : ParseState) (l : Lexer) : Advances s l s l
  | step {s s' s'' : ParseState} {l l' l'' : Lexer} {t : Token} (read : l.next = (.ok (some t), l'))
    (taken : s.take t l.offset = .ok s') (more : Advances s' l' s'' l'') : Advances s l s'' l''

namespace Advances

theorem trans {s s' s'' : ParseState} {l l' l'' : Lexer} (h : Advances s l s' l')
    (h' : Advances s' l' s'' l'') : Advances s l s'' l'' := by
  induction h with
  | refl => exact h'
  | step read taken _ ih => exact .step read taken (ih h')

/-- A run that has come some way ends as it would have from the start. -/
theorem run_eq {s s' : ParseState} {l l' : Lexer} (h : Advances s l s' l') (last : Option Token) :
    ∃ last', Parser.run 0 s last l l.steps = Parser.run 0 s' last' l' l'.steps := by
  induction h generalizing last with
  | refl => exact ⟨last, rfl⟩
  | @step s s' s'' l l' l'' t read taken _ ih =>
    obtain ⟨last', ih⟩ := ih (some t)
    refine ⟨last', ?_⟩
    rw [Lexer.steps_of_next read, Parser.run, Parser.proceed_of_ok taken]
    exact ih

end Advances

/-- A token that the one reads and the other takes carries both on. -/
theorem Lexer.Reads.advances {mode mode' : LexMode} {cs rest : List Char} {t : Token}
    (h : Reads mode cs t mode' rest) (s : ParseState) (offset : Nat) {s' : ParseState}
    (taken : s.take t offset = .ok s') :
    ∃ offset', Advances s ⟨cs, offset, mode⟩ s' ⟨rest, offset', mode'⟩ := by
  obtain ⟨offset', read⟩ := h offset
  exact ⟨offset', .step read taken (.refl ..)⟩

/-- The first call of a parser that has read a token is a run from in front of that token. -/
theorem Parser.parse_eq_run {l l' : Lexer} {t : Token} (read : l.next = (.ok (some t), l'))
    (last : Option Token) :
    parse ⟨l', some t, l.offset, 0⟩ = run 0 .start last l l.steps := by
  rw [Lexer.steps_of_next read]
  rfl

/-- Parsing is a run over all the steps of the lexer. -/
theorem Expression.ofQuery_eq_ok {query : String} {e : Expression} :
    ofQuery query = .ok e ↔
      (Parser.run 0 .start none (Lexer.ofQuery query) (Lexer.ofQuery query).steps).1 = .ok e := by
  simp only [ofQuery, bind_eq_ok, Parser.ofLexer]
  cases h : (Lexer.ofQuery query).next with
  | mk outcome l =>
    cases outcome with
    | error x => simp [Lexer.steps_of_error h, Parser.run]
    | ok token =>
      cases token with
      | none =>
        simp [Lexer.steps_of_end h, Parser.parse, Parser.run, ParseState.finish, ParseState.start]
      | some t => simp [← Parser.parse_eq_run h none]

def Expression.Printable : Expression → Prop
  | comparison s _ a => Lexeme.IsSelector s.toList ∧ a.Printable
  | joined _ l r => l.Printable ∧ r.Printable

instance Expression.decidablePrintable : (e : Expression) → Decidable e.Printable
  | comparison s _ a => inferInstanceAs (Decidable (Lexeme.IsSelector s.toList ∧ a.Printable))
  | joined _ l r => @instDecidableAnd _ _ (decidablePrintable l) (decidablePrintable r)

/-- What the operand has become can be printed and read again. -/
structure Operand.Sound (x : Operand) : Prop where
  printable : x.expression.Printable
  shallow : x.levels ≤ maxDepth

structure Group.Sound (g : Group) : Prop where
  tight : ∀ p ∈ g.tight, p.left.Sound
  loose : ∀ p ∈ g.loose, p.left.Sound

def Stage.Sound : Stage → Prop
  | operand => True
  | relation s => Lexeme.IsSelector s.toList
  | argument s _ => Lexeme.IsSelector s.toList
  | connector x => x.Sound

structure ParseState.Sound (s : ParseState) : Prop where
  stage : s.stage.Sound
  group : s.group.Sound
  outer : ∀ g ∈ s.outer, g.Sound

theorem joinPending_sound {p : Option Pending} {x y : Operand} (hp : ∀ q ∈ p, q.left.Sound)
    (hx : x.Sound) (h : joinPending p x = .ok y) : y.Sound := by
  cases p with
  | none =>
    cases h
    exact hx
  | some p =>
    simp only [joinPending, Pending.join?] at h
    split at h
    · cases h
    · rename_i shallow
      cases h
      exact ⟨⟨(hp p rfl).printable, hx.printable⟩, Nat.le_of_not_lt shallow⟩

namespace ParseState

variable {s s' : ParseState} {x y : Operand} {t : Token} {position : Nat}

theorem closeGroup_sound (hs : s.Sound) (hx : x.Sound) (h : s.closeGroup x = .ok y) : y.Sound := by
  simp only [closeGroup, bind_eq_ok] at h
  obtain ⟨z, tight, loose⟩ := h
  exact joinPending_sound hs.group.loose (joinPending_sound hs.group.tight hx tight) loose

theorem connect_sound {c : Connector} (hs : s.Sound) (hx : x.Sound)
    (h : s.connect x c position = .ok s') : s'.Sound := by
  unfold connect at h
  split at h
  · simp only [bind_eq_ok] at h
    obtain ⟨y, tight, h⟩ := h
    cases h
    have hy := joinPending_sound hs.group.tight hx tight
    refine ⟨trivial, ⟨?_, hs.group.loose⟩, hs.outer⟩
    rintro p ⟨⟩
    exact hy
  · simp only [bind_eq_ok] at h
    obtain ⟨y, closed, h⟩ := h
    cases h
    have hy := closeGroup_sound hs hx closed
    refine ⟨trivial, ⟨by simp, ?_⟩, hs.outer⟩
    rintro p ⟨⟩
    exact hy

theorem close_sound (hs : s.Sound) (hx : x.Sound) (h : s.close x t position = .ok s') :
    s'.Sound := by
  simp only [close, bind_eq_ok] at h
  obtain ⟨y, closed, h⟩ := h
  have hy := closeGroup_sound hs hx closed
  have outer := hs.outer
  split at h
  · rename_i g gs ho
    cases h
    rw [ho] at outer
    exact ⟨hy, outer g (by simp), fun g' hg => outer g' (by simp [hg])⟩
  · cases h
  · cases h

/-- Every state of a run keeps operands that can be printed and are not too deep. -/
theorem take_sound (hs : s.Sound) (ht : t.Printable) (h : s.take t position = .ok s') :
    s'.Sound := by
  have stage := hs.stage
  unfold take at h
  split at h
  · split at h
    · cases h
    · cases h
      refine ⟨trivial, ⟨by simp [Group.new], by simp [Group.new]⟩, ?_⟩
      intro g hg
      rcases List.mem_cons.mp hg with rfl | hg
      · exact hs.group
      · exact hs.outer g hg
  · cases h
    exact ⟨ht, hs.group, hs.outer⟩
  · cases h
  · rename_i here
    cases h
    rw [here] at stage
    exact ⟨stage, hs.group, hs.outer⟩
  · cases h
  · rename_i here
    cases h
    rw [here] at stage
    exact ⟨⟨⟨stage, ht⟩, (by decide : 1 ≤ maxDepth)⟩, hs.group, hs.outer⟩
  · cases h
  · rename_i here
    rw [here] at stage
    exact connect_sound hs stage h
  · rename_i here _
    rw [here] at stage
    exact close_sound hs stage h

/-- What is parsed can be printed and is not too deep. -/
theorem finish_sound {e : Expression} (hs : s.Sound) (h : s.finish position = .ok e) :
    e.Printable ∧ e.height ≤ maxDepth := by
  have stage := hs.stage
  unfold finish at h
  split at h
  · cases h
  · cases h
  · cases h
  · rename_i x here
    rw [here] at stage
    simp only [bind_eq_ok] at h
    obtain ⟨y, closed, h⟩ := h
    split at h
    · cases h
      have hy := closeGroup_sound hs stage closed
      exact ⟨hy.printable, y.levels_eq ▸ hy.shallow⟩
    · cases h

theorem start_sound : start.Sound := by
  refine ⟨trivial, ⟨?_, ?_⟩, ?_⟩ <;> simp [start, Group.new]

end ParseState

/-- The tree at the end of a run is one that can be printed, and no deeper than a tree may be. -/
theorem Parser.run_sound {s : ParseState} {last : Option Token} {l : Lexer}
    {steps : List Lexer.Step} {e : Expression} (hs : s.Sound)
    (printable : ∀ step ∈ steps, ∀ t, step.outcome = .ok t → t.Printable)
    (h : (run 0 s last l steps).1 = .ok e) : e.Printable ∧ e.height ≤ maxDepth := by
  induction steps generalizing s last l with
  | nil => exact ParseState.finish_sound hs h
  | cons step steps ih =>
    obtain ⟨outcome, after⟩ := step
    cases outcome with
    | error x => cases h
    | ok t =>
      rw [run] at h
      cases taken : s.take t l.offset with
      | ok s' =>
        rw [proceed_of_ok taken] at h
        have ht : t.Printable := printable ⟨.ok t, after⟩ (by simp) t rfl
        have rest : ∀ step ∈ steps, ∀ t, step.outcome = .ok t → t.Printable := by
          intro step hm
          exact printable step (by simp [hm])
        exact ih (ParseState.take_sound hs ht taken) rest h
      | error x =>
        rw [proceed_of_error taken] at h
        cases h

end EntityFilter

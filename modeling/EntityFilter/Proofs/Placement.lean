import EntityFilter.Proofs.Runs

namespace EntityFilter

open Fallible Text

/-- The text goes on with `part` behind its first `position` bytes. -/
def Text.BeginsAt (cs : List Char) (position : Nat) (part : List Char) : Prop :=
  ∃ before, before ++ part = cs ∧ byteLength before = position

theorem Text.eq_nil_of_byteLength {cs : List Char} (h : byteLength cs = 0) : cs = [] := by
  cases cs with
  | nil => rfl
  | cons c cs =>
    have width := c.utf8Size_pos
    rw [byteLength_cons] at h
    omega

/-- What begins at a position is all that is left of the text there. -/
theorem Text.BeginsAt.unique {cs part part' : List Char} {position : Nat}
    (h : BeginsAt cs position part) (h' : BeginsAt cs position part') : part = part' := by
  obtain ⟨before, rfl, bytes⟩ := h
  obtain ⟨before', same, bytes'⟩ := h'
  -- One of the two starts the other, and what lies between their ends has no bytes.
  rcases List.append_eq_append_iff.mp same with ⟨between, rfl, rfl⟩ | ⟨between, rfl, rfl⟩
  · rw [byteLength_append] at bytes
    rw [eq_nil_of_byteLength (by omega : byteLength between = 0)]
    rfl
  · rw [byteLength_append] at bytes'
    rw [eq_nil_of_byteLength (by omega : byteLength between = 0)]
    rfl

namespace Lexer

variable {l k : Lexer} {t : Token} {ts us : List (Token × Nat)}

/-- The first lexer reads the tokens, each from its position on, and is then the second one. -/
inductive Locates : Lexer → List (Token × Nat) → Lexer → Prop where
  | refl (l : Lexer) : Locates l [] l
  | token {l l' k : Lexer} {t : Token} {ts : List (Token × Nat)}
    (read : l.next = (.ok (some t), l')) (more : Locates l' ts k) :
    Locates l ((t, l.offset) :: ts) k

namespace Locates

theorem toPrefix (h : Locates l ts k) : Prefix l (ts.map Prod.fst) k := by
  induction h with
  | refl l => exact .refl l
  | token read _ ih => exact .token read ih

/-- At one of the tokens the lexer stands at its position, and the tokens in front of it have been
read. -/
theorem split {position : Nat} (h : Locates l (ts ++ (t, position) :: us) k) :
    ∃ m m', Prefix l (ts.map Prod.fst) m ∧ m.offset = position ∧ m.next = (.ok (some t), m') ∧
      Prefix m' (us.map Prod.fst) k := by
  induction ts generalizing l with
  | nil =>
    cases h with
    | token read more => exact ⟨l, _, .refl l, rfl, read, more.toPrefix⟩
  | cons u ts ih =>
    cases h with
    | token read more =>
      obtain ⟨m, m', front, place, found, behind⟩ := ih more
      exact ⟨m, m', .token read front, place, found, behind⟩

end Locates

end Lexer

namespace Advances

variable {s s' : ParseState} {l l' : Lexer}

/-- A parser that has advanced has taken the tokens that were read, each at its position. -/
theorem locates (h : Advances s l s' l') :
    ∃ ts, Lexer.Locates l ts l' ∧ s.takeAll ts = .ok s' := by
  induction h with
  | refl s l => exact ⟨[], .refl l, rfl⟩
  | step read taken _ ih =>
    obtain ⟨ts, located, all⟩ := ih
    refine ⟨_, .token read located, ?_⟩
    rw [ParseState.takeAll_cons, taken]
    exact all

theorem sound (h : Advances s l s' l') (hs : s.Sound) : s'.Sound := by
  induction h with
  | refl => exact hs
  | step read taken _ ih => exact ih (ParseState.take_sound hs (Lexer.next_eq_ok read).2 taken)

end Advances

/-- Whether the tokens close as many groups as they open. -/
def Balanced (ts : List (Token × Nat)) : Prop :=
  (ts.map Prod.fst).count .opening = (ts.map Prod.fst).count .closing

theorem Waits.balanced {tight : Bool} {p : Option Pending} {ts : List (Token × Nat)}
    (h : Waits tight p ts) : Balanced ts := by
  cases h with
  | nothing => rfl
  | pending _ left => simp [Balanced, left.balanced]

theorem Group.ReadFrom.balanced {g : Group} {ts us : List (Token × Nat)} (h : g.ReadFrom ts us) :
    Balanced (ts ++ us) := by
  have loose : Balanced ts := h.loose.balanced
  have tight : Balanced us := h.tight.balanced
  simp only [Balanced, List.map_append, List.count_append] at *
  omega

theorem Stage.ReadFrom.balanced {stage : Stage} {ts : List (Token × Nat)} (h : stage.ReadFrom ts) :
    Balanced ts := by
  cases stage with
  | operand =>
    cases h
    rfl
  | relation =>
    obtain ⟨o, rfl⟩ := h
    rfl
  | argument =>
    obtain ⟨o, p, rfl⟩ := h
    rfl
  | connector => exact Derives.balanced h

/-- As many parentheses are open as there are groups around. -/
theorem Surround.count_opening {gs : List Group} {ts : List (Token × Nat)} (h : Surround gs ts) :
    (ts.map Prod.fst).count .opening = (ts.map Prod.fst).count .closing + gs.length := by
  induction h with
  | nothing => rfl
  | group inner _ ih =>
    have balanced := inner.balanced
    simp only [Balanced, List.map_append, List.count_append] at balanced ⊢
    simp
    omega

/-- The groups around a state are those that the tokens have opened and not closed. -/
theorem ParseState.ReadFrom.length_outer {s : ParseState} {ts : List (Token × Nat)}
    (h : s.ReadFrom ts) : s.outer.length = openGroups (ts.map Prod.fst) := by
  obtain ⟨outer, group, stage, rfl⟩ := h
  have around := outer.count_opening
  have inner := group.balanced
  have begun := stage.balanced
  simp only [Balanced, openGroups, List.map_append, List.count_append] at *
  omega

/-- The connector between the tokens joins operands that are not too deep to a tree that is. The
left one ends the tokens in front of it, and the right one is all that is behind it. -/
inductive Overload (ts : List Token) (c : Connector) (vs : List Token) : Prop where
  | intro {us : List Token} {a b : Expression} (ends : us <:+ ts)
    (left : Derives (.chain c.isTight) us a) (right : Derives (.part c.isTight) vs b)
    (fits : a.height ≤ maxDepth ∧ b.height ≤ maxDepth)
    (deep : maxDepth < (Expression.joined c a b).height)

/-- The connector at the position joins too much. -/
def OverloadAt (position : Nat) (ts : List (Token × Nat)) : Prop :=
  ∃ us c vs, ts = us ++ (.connector c, position) :: vs ∧
    Overload (us.map Prod.fst) c (vs.map Prod.fst)

section

variable {ts us vs ws : List (Token × Nat)} {position : Nat} {e : ParseError} {x : Operand}

theorem OverloadAt.append_left (ts : List (Token × Nat)) (h : OverloadAt position us) :
    OverloadAt position (ts ++ us) := by
  obtain ⟨us, c, vs, rfl, ends, left, right, fits, deep⟩ := h
  have further : us.map Prod.fst <:+ (ts ++ us).map Prod.fst :=
    List.map_append ▸ List.suffix_append ..
  exact ⟨ts ++ us, c, vs, (List.append_assoc ..).symm, ends.trans further, left, right, fits, deep⟩

/-- Joining what waits fails only at the connector that waits. -/
theorem Waits.overload {tight : Bool} {p : Option Pending} (waits : Waits tight p ts)
    (sound : ∀ q ∈ p, q.left.Sound) (right : Derives (.part tight) (us.map Prod.fst) x.expression)
    (hx : x.Sound) (h : joinPending p x = .error e) :
    ∃ o, e = .tooDeep o ∧ OverloadAt o (ts ++ us) := by
  cases waits with
  | nothing => cases h
  | @pending q ts strength left =>
    simp only [joinPending, Pending.join?] at h
    split at h
    · rename_i deep
      cases h
      subst strength
      have fits : q.left.levels ≤ maxDepth ∧ x.levels ≤ maxDepth :=
        ⟨(sound q rfl).shallow, hx.shallow⟩
      rw [q.left.levels_eq, x.levels_eq] at fits
      rw [Operand.levels_eq] at deep
      refine ⟨q.position, rfl, ts, q.connector, us, by simp, ?_⟩
      exact .intro List.suffix_rfl left right fits deep
    · cases h

namespace ParseState

variable {s : ParseState} {t : Token}

/-- Closing a group fails for a connector that waits in it, at the position of that connector. -/
theorem closeGroup_overload (group : s.group.ReadFrom us vs) (sound : s.group.Sound)
    (operand : Derives .operand (ws.map Prod.fst) x.expression) (hx : x.Sound)
    (h : s.closeGroup x = .error e) : ∃ o, e = .tooDeep o ∧ OverloadAt o (us ++ vs ++ ws) := by
  rw [List.append_assoc]
  rcases bind_eq_error.mp h with tight | ⟨y, tight, loose⟩
  · obtain ⟨o, same, deep⟩ := group.tight.overload sound.tight operand hx tight
    exact ⟨o, same, deep.append_left us⟩
  · have chain := group.tight.join operand tight
    exact group.loose.overload sound.loose chain (joinPending_sound sound.tight hx tight) loose

/-- A connector is refused only for what waits in front of it. -/
theorem connect_overload {c : Connector} (group : s.group.ReadFrom us vs) (sound : s.group.Sound)
    (operand : Derives .operand (ws.map Prod.fst) x.expression) (hx : x.Sound)
    (h : s.connect x c position = .error e) :
    ∃ o, e = .tooDeep o ∧ OverloadAt o (us ++ vs ++ ws) := by
  unfold connect at h
  split at h
  · rcases bind_eq_error.mp h with tight | ⟨y, _, h⟩
    · obtain ⟨o, same, deep⟩ := group.tight.overload sound.tight operand hx tight
      rw [List.append_assoc]
      exact ⟨o, same, deep.append_left us⟩
    · cases h
  · rcases bind_eq_error.mp h with failed | ⟨y, _, h⟩
    · exact closeGroup_overload group sound operand hx failed
    · cases h

/-- A parenthesis is refused if it closes no group or if its group nests too deep. -/
theorem close_eq_error (group : s.group.ReadFrom us vs) (sound : s.group.Sound)
    (operand : Derives .operand (ws.map Prod.fst) x.expression) (hx : x.Sound)
    (h : s.close x .closing position = .error e) :
    e = .unexpected .finish (some .closing) position ∨
      ∃ o, e = .tooDeep o ∧ OverloadAt o (us ++ vs ++ ws) := by
  rcases bind_eq_error.mp h with failed | ⟨y, _, h⟩
  · exact .inr (closeGroup_overload group sound operand hx failed)
  · split at h
    · cases h
    · rename_i other
      exact absurd rfl other
    · cases h
      exact .inl rfl

/-- What is missing where the input ends. -/
def missing (s : ParseState) : Expected :=
  match s.stage with
  | .operand => .operand
  | .relation _ => .relation
  | .argument _ _ => .argument
  | .connector _ => .closing

/-- A state refuses the end of the input where something is missing, or where a connector joins too
much. -/
theorem finish_eq_error (read : s.ReadFrom ts) (sound : s.Sound)
    (h : s.finish position = .error e) :
    e = .unexpected s.missing none position ∨ ∃ o, e = .tooDeep o ∧ OverloadAt o ts := by
  obtain ⟨stage, g, gs⟩ := s
  obtain ⟨outer, group, begun, rfl⟩ := read
  cases stage with
  | connector x =>
    rcases bind_eq_error.mp h with failed | ⟨y, _, h⟩
    · obtain ⟨o, same, deep⟩ := closeGroup_overload group sound.group begun sound.stage failed
      refine .inr ⟨o, same, ?_⟩
      simpa using deep.append_left _
    · split at h <;> cases h
      exact .inl rfl
  | _ =>
    cases h
    exact .inl rfl

/-- Of the tokens that come in their mode, a state refuses a parenthesis that closes no group or
that opens one too many, and any token behind an operand where a connector joins too much. -/
theorem take_eq_error (read : s.ReadFrom ts) (sound : s.Sound) (inMode : t.mode = s.stage.mode)
    (h : s.take t position = .error e) :
    (t = .closing ∧ e = .unexpected .finish (some .closing) position) ∨
      (t = .opening ∧ openGroups (ts.map Prod.fst) = maxDepth ∧ e = .tooDeep position) ∨
      ∃ o, e = .tooDeep o ∧ OverloadAt o ts := by
  have groups := read.length_outer
  obtain ⟨stage, g, gs⟩ := s
  obtain ⟨outer, group, begun, rfl⟩ := read
  -- A stage meets the tokens of its own mode only.
  cases stage with
  | operand =>
    cases t with
    | opening =>
      simp only [take] at h
      split at h <;> cases h
      rename_i full
      exact .inr (.inl ⟨rfl, groups ▸ full, rfl⟩)
    | selector => cases h
    | _ => cases inMode
  | relation =>
    cases t with
    | relation => cases h
    | _ => cases inMode
  | argument =>
    cases t with
    | argument => cases h
    | _ => cases inMode
  | connector x =>
    have hx : x.Sound := sound.stage
    cases t with
    | connector c =>
      have h : connect _ x c position = .error e := h
      obtain ⟨o, same, deep⟩ := connect_overload group sound.group begun hx h
      refine .inr (.inr ⟨o, same, ?_⟩)
      simpa using deep.append_left _
    | closing =>
      rcases close_eq_error group sound.group begun hx h with unopened | ⟨o, same, deep⟩
      · exact .inl ⟨rfl, unopened⟩
      · refine .inr (.inr ⟨o, same, ?_⟩)
        simpa using deep.append_left _
    | _ => cases inMode

end ParseState

end

/-- The lexer has read the tokens and stands at the position, in front of blanks and what comes
behind them. -/
structure Placed (query : String) (ts : List Token) (position : Nat) (blanks after : List Char) :
    Prop where
  read : ∃ mode, Lexer.Prefix (.ofQuery query) ts ⟨blanks ++ after, position, mode⟩
  begins : BeginsAt query.toList position (blanks ++ after)
  blank : ∀ c ∈ blanks, isBlank c

/-- Behind the tokens that were read the query goes on with blanks, if any, and what comes after
them. -/
theorem Placed.of_prefix {query : String} {ts : List Token} {l : Lexer}
    (read : Lexer.Prefix (.ofQuery query) ts l) {after : List Char}
    (trimmed : trimBlanks l.rest = after) :
    ∃ blanks, Placed query ts l.offset blanks after := by
  obtain ⟨before, whole, bytes⟩ := read.ahead
  have split : l.rest.takeWhile isBlank ++ after = l.rest := by
    rw [← trimmed]
    exact List.takeWhile_append_dropWhile
  refine ⟨l.rest.takeWhile isBlank, ⟨l.mode, ?_⟩, ⟨before, ?_, ?_⟩, ?_⟩
  · rw [split]
    exact read
  · rw [split]
    exact whole
  · rw [← bytes]
    exact (Nat.zero_add _).symm
  · intro c hc
    exact List.mem_takeWhile_imp hc

/-- What the parser reports where the lexer stands behind the tokens. -/
inductive Reports (ts : List (Token × Nat)) (k : Lexer) : ParseError → Prop where
  | missing (s : ParseState) (ended : trimBlanks k.rest = []) :
    Reports ts k (.unexpected s.missing none k.offset)
  | closing {rest : List Char} (found : trimBlanks k.rest = ')' :: rest) :
    Reports ts k (.unexpected .finish (some .closing) k.offset)
  | opening {rest : List Char} (found : trimBlanks k.rest = '(' :: rest)
    (full : openGroups (ts.map Prod.fst) = maxDepth) : Reports ts k (.tooDeep k.offset)
  | connector {position : Nat} (deep : OverloadAt position ts) : Reports ts k (.tooDeep position)

namespace ParseState

variable {s : ParseState} {ts : List (Token × Nat)} {k k' : Lexer} {t : Token} {e : ParseError}

theorem reports_of_finish (read : s.ReadFrom ts) (sound : s.Sound) (ended : k.next = (.ok none, k'))
    (h : s.finish k.offset = .error e) : Reports ts k e := by
  rcases finish_eq_error read sound h with rfl | ⟨o, rfl, deep⟩
  · exact .missing s (Lexer.next_eq_none.mp ended).1
  · exact .connector deep

/-- A token that was read is refused because it has no place or because it nests too deep. -/
theorem reports_of_take (read : s.ReadFrom ts) (sound : s.Sound) (inMode : k.mode = s.stage.mode)
    (found : k.next = (.ok (some t), k')) (h : s.take t k.offset = .error e) : Reports ts k e := by
  have inMode := (Lexer.next_starts found).1.trans inMode
  rcases take_eq_error read sound inMode h with ⟨rfl, rfl⟩ | ⟨rfl, full, rfl⟩ | ⟨o, rfl, deep⟩
  · obtain ⟨_, _, rest, trimmed, ⟨⟩⟩ := Lexer.next_starts found
    exact .closing trimmed
  · obtain ⟨_, _, rest, trimmed, ⟨⟩⟩ := Lexer.next_starts found
    exact .opening trimmed full
  · exact .connector deep

end ParseState

namespace Parser

/-- What the first call of a parser reports, unless the lexer fails. -/
theorem Ends.reports {l k : Lexer} {s : ParseState} {last : Option Token} {e : ParseError}
    {result : Except ParseError Expression × Parser} (h : Ends s last k result)
    (advances : Advances .start l s k) (start : l.mode = .selector) (failed : result.1 = .error e) :
    (∃ x, e = .lex x) ∨ ∃ ts, Lexer.Locates l ts k ∧ Reports ts k e := by
  obtain ⟨ts, located, all⟩ := advances.locates
  have read : s.ReadFrom ts := ParseState.readFrom_start.takeAll all
  have sound : s.Sound := advances.sound ParseState.start_sound
  have inMode : k.mode = s.stage.mode := advances.mode_eq start
  cases h with
  | finished ended => exact .inr ⟨ts, located, ParseState.reports_of_finish read sound ended failed⟩
  | unread =>
    cases failed
    exact .inl ⟨_, rfl⟩
  | refused found refused =>
    cases failed
    exact .inr ⟨ts, located, ParseState.reports_of_take read sound inMode found refused⟩

end Parser

namespace Expression

/-- A query that is neither empty nor broken for the lexer fails behind tokens that were read, for
what comes after them or for how deep they nest. -/
theorem ofQuery_reports {query : String} {e : ParseError} (h : ofQuery query = .error e) :
    e = .empty ∨ (∃ x, e = .lex x) ∨
      ∃ ts k, Lexer.Locates (.ofQuery query) ts k ∧ Reports ts k e := by
  rcases bind_eq_error.mp h with failed | ⟨p, made, failed⟩
  · unfold Parser.ofLexer at failed
    split at failed <;> cases failed
    exact .inr (.inl ⟨_, rfl⟩)
  · unfold Parser.ofLexer at made
    split at made
    · cases made
    · rename_i current l' read
      cases made
      cases current with
      | none =>
        cases failed
        exact .inl rfl
      | some t =>
        obtain ⟨s, last, k, advances, ends⟩ := Parser.parse_ends read
        rcases ends.reports advances rfl failed with lex | ⟨ts, located, reports⟩
        · exact .inr (.inl lex)
        · exact .inr (.inr ⟨ts, k, located, reports⟩)

/-- A position that the parser reports is the end of what was read in front of it. Behind the
blanks there comes what was found: the end of the input, or a parenthesis that closes no group.
What nests too deep is there a parenthesis in as many groups as there may be, or a connector that
joins too much. -/
theorem ofQuery_error_position (query : String) (position : Nat) :
    (∀ x found, ofQuery query = .error (.unexpected x found position) →
      ∃ ts blanks after, Placed query ts position blanks after ∧
        (found = none ∧ after = [] ∨ ∃ rest, found = some .closing ∧ after = ')' :: rest)) ∧
    (ofQuery query = .error (.tooDeep position) →
      ∃ ts blanks rest,
        (Placed query ts position blanks ('(' :: rest) ∧ openGroups ts = maxDepth) ∨
        ∃ c us l, Placed query ts position blanks (c.symbol :: rest) ∧ Overload ts c us ∧
          Lexer.Prefix (.ofQuery query) (ts ++ .connector c :: us) l) := by
  constructor
  · intro x found failed
    rcases ofQuery_reports failed with same | ⟨_, same⟩ | ⟨ts, k, located, reports⟩
    · cases same
    · cases same
    · cases reports with
      | missing s ended =>
        obtain ⟨blanks, placed⟩ := Placed.of_prefix located.toPrefix ended
        exact ⟨_, blanks, [], placed, .inl ⟨rfl, rfl⟩⟩
      | closing found =>
        obtain ⟨blanks, placed⟩ := Placed.of_prefix located.toPrefix found
        exact ⟨_, blanks, _, placed, .inr ⟨_, rfl, rfl⟩⟩
  · intro failed
    rcases ofQuery_reports failed with same | ⟨_, same⟩ | ⟨ts, k, located, reports⟩
    · cases same
    · cases same
    · cases reports with
      | opening found full =>
        obtain ⟨blanks, placed⟩ := Placed.of_prefix located.toPrefix found
        exact ⟨_, blanks, _, .inl ⟨placed, full⟩⟩
      | connector deep =>
        obtain ⟨us, c, vs, rfl, overload⟩ := deep
        obtain ⟨m, m', front, rfl, found, behind⟩ := located.split
        obtain ⟨_, _, rest, trimmed, ⟨⟩⟩ := Lexer.next_starts found
        obtain ⟨blanks, placed⟩ := Placed.of_prefix front trimmed
        have whole := front.append (.token found behind)
        exact ⟨_, blanks, rest, .inr ⟨c, _, k, placed, overload, whole⟩⟩

/-- A parenthesis that closes no group, and one that opens a group too many. -/
theorem ofQuery_error_position_of_clinic :
    (ofQuery "town==Ghent )" = .error (.unexpected .finish (some .closing) 11) ∧
      ∃ ts blanks rest, Placed "town==Ghent )" ts 11 blanks (')' :: rest)) ∧
    ∃ position, ofQuery (Clinic.enclosed 513) = .error (.tooDeep position) ∧
      ∃ ts blanks c rest, Placed (Clinic.enclosed 513) ts position blanks (c :: rest) := by
  constructor
  · have failed : ofQuery "town==Ghent )" = .error (.unexpected .finish (some .closing) 11) := by
      cbv
    refine ⟨failed, ?_⟩
    obtain ⟨ts, blanks, after, placed, ⟨found, _⟩ | ⟨rest, _, rfl⟩⟩ :=
      (ofQuery_error_position _ _).1 _ _ failed
    · cases found
    · exact ⟨ts, blanks, rest, placed⟩
  · have broken : ¬ (FitsIn 0 (Clinic.enclosedTokens 513) ∧ Clinic.grown.height ≤ maxDepth) :=
      fun kept => Clinic.exceeded_enclosed (fitsIn_zero.mp kept.1)
    obtain ⟨position, failed⟩ :=
      (ofQuery_within (Clinic.lexes_enclosed 513) (Clinic.sentence_enclosed 513)).2 broken
    refine ⟨position, failed, ?_⟩
    obtain ⟨ts, blanks, rest, ⟨placed, _⟩ | ⟨c, _, _, placed, _⟩⟩ :=
      (ofQuery_error_position _ _).2 failed
    · exact ⟨ts, blanks, _, rest, placed⟩
    · exact ⟨ts, blanks, _, rest, placed⟩

/-- The parenthesis begins behind the blank, and the input ends behind the other one, a byte
further on than is reported. -/
theorem ofQuery_position_before_blanks :
    ofQuery "town==Ghent )" = .error (.unexpected .finish (some .closing) 11) ∧
      (∀ rest, ¬ BeginsAt "town==Ghent )".toList 11 (')' :: rest)) ∧
      BeginsAt "town==Ghent )".toList 12 [')'] ∧
      ofQuery "town== " = .error (.unexpected .argument none 6) ∧ "town== ".utf8ByteSize = 7 := by
  have blank : BeginsAt "town==Ghent )".toList 11 [' ', ')'] := ⟨"town==Ghent".toList, rfl, rfl⟩
  refine ⟨by cbv, ?_, ⟨"town==Ghent ".toList, rfl, rfl⟩, by cbv, rfl⟩
  intro rest reported
  cases blank.unique reported

end Expression

end EntityFilter

import EntityFilter.Proofs.Sentences

namespace EntityFilter

open Text Lexeme

/-- No lexeme goes on with the text. -/
def Fenced (rest : List Char) : Prop := ∀ c ∈ rest.head?, c ∈ fences

namespace Fenced

variable {rest : List Char}

theorem closes (h : Fenced rest) : Closes rest := by
  cases rest with
  | nil => exact .finish
  | cons c cs => exact .fence (h c rfl) cs

theorem off (h : Fenced rest) : ∀ c ∈ rest.head?, isIdentifierPart c = false ∧ c ≠ '.' := by
  intro c hc
  have fence := h c hc
  simp only [fences, List.mem_cons, List.not_mem_nil, or_false] at fence
  rcases fence with rfl | rfl | rfl <;> decide

end Fenced

namespace LexError

/-- The same `n` bytes further on. -/
def shift (n : Nat) : LexError → LexError
  | unexpectedCharacter c p e => unexpectedCharacter c (p + n) e
  | expectedRelation p => expectedRelation (p + n)
  | invalidArgument p => invalidArgument (p + n)
  | unterminatedString p => unterminatedString (p + n)
  | invalidEscape c p => invalidEscape c (p + n)

end LexError

namespace Lexer

variable {l l' : Lexer} {t : Token} {ts us : List Token} {rest : List Char}

/-- The lexer where `rest` follows the text. -/
def followed (l : Lexer) (rest : List Char) : Lexer := { l with rest := l.rest ++ rest }

theorem trimBlanks_followed {c : Char} {cs : List Char} (h : trimBlanks l.rest = c :: cs)
    (rest : List Char) : trimBlanks (l.rest ++ rest) = c :: (cs ++ rest) := by
  unfold trimBlanks at h ⊢
  rw [List.dropWhile_append, h]
  rfl

theorem skipBlanks_followed {c : Char} {cs : List Char} (h : trimBlanks l.rest = c :: cs)
    (rest : List Char) : (l.followed rest).skipBlanks = l.skipBlanks.followed rest := by
  have some : (l.rest.takeWhile isBlank).length ≠ l.rest.length := by
    intro all
    have whole := congrArg List.length (List.takeWhile_append_dropWhile (p := isBlank) (l := l.rest))
    unfold trimBlanks at h
    simp [h, all] at whole
  have blanks : (l.rest ++ rest).takeWhile isBlank = l.rest.takeWhile isBlank := by
    rw [List.takeWhile_append, if_neg some]
  simp [skipBlanks, followed, trimBlanks_followed h, h, blanks]

section

variable {c : Char} {cs : List Char}

theorem readOperand_followed (fenced : Fenced rest) (h : l.readOperand c cs = (.ok t, l')) :
    (l.followed rest).readOperand c (cs ++ rest) = (.ok t, l'.followed rest) := by
  unfold readOperand at h ⊢
  split at h
  · rename_i opening
    cases h
    rw [if_pos opening]
    rfl
  · rename_i other
    rw [if_neg other]
    split at h
    · rename_i split
      cases h
      rw [← List.cons_append, selector_split_followed fenced.off split]
      rfl
    · cases h

theorem readRelation_followed (h : l.readRelation = (.ok t, l')) (rest : List Char) :
    (l.followed rest).readRelation = (.ok t, l'.followed rest) := by
  unfold readRelation at h ⊢
  split at h
  · rename_i r found
    cases h
    obtain ⟨more, symbol⟩ := relation?_eq_some found
    have again : relation? (l.followed rest).rest = some r := by
      rw [followed, symbol, List.append_assoc]
      exact relation?_append r (more ++ rest)
    rw [again]
    simp [followed, past, symbol]
  · cases h

theorem readArgument_followed (fenced : Fenced rest) (h : l.readArgument c cs = (.ok t, l')) :
    (l.followed rest).readArgument c (cs ++ rest) = (.ok t, l'.followed rest) := by
  unfold readArgument at h ⊢
  split at h
  · rename_i quote
    rw [if_pos quote]
    split at h
    · rename_i closed
      cases h
      have longer : quoted c ((l.followed rest).offset + 1) (cs ++ rest) = _ :=
        quoted_followed (ne_backslash_of_quote quote) closed rest
      rw [longer]
      rfl
    · cases h
    · cases h
  · rename_i bare
    rw [if_neg bare]
    split at h
    · rename_i b found
      cases h
      rw [← List.cons_append, bare?_append fenced.closes.ended found]
      rfl
    · cases h

theorem readConnector_followed (h : l.readConnector c cs = (.ok t, l')) (rest : List Char) :
    (l.followed rest).readConnector c (cs ++ rest) = (.ok t, l'.followed rest) := by
  unfold readConnector at h ⊢
  split at h
  · rename_i closing
    cases h
    rw [if_pos closing]
    rfl
  · rename_i other
    rw [if_neg other]
    split at h
    · cases h
      rfl
    · cases h

theorem readToken_followed (fenced : Fenced rest) (h : l.readToken c cs = (.ok t, l')) :
    (l.followed rest).readToken c (cs ++ rest) = (.ok t, l'.followed rest) := by
  have mode : (l.followed rest).mode = l.mode := rfl
  unfold readToken at h ⊢
  rw [mode]
  split at h
  · exact readOperand_followed fenced h
  · exact readRelation_followed h rest
  · exact readArgument_followed fenced h
  · exact readConnector_followed h rest

end

/-- What is read in front of a closing parenthesis or a quote does not hang on it nor on what stands
behind it. -/
theorem next_followed (fenced : Fenced rest) (h : l.next = (.ok (some t), l')) :
    (l.followed rest).next = (.ok (some t), l'.followed rest) := by
  obtain ⟨c, cs, trimmed, read⟩ := next_eq_some.mp h
  refine next_eq_some.mpr ⟨c, cs ++ rest, trimBlanks_followed trimmed rest, ?_⟩
  rw [skipBlanks_followed trimmed]
  exact readToken_followed fenced read

theorem next_eq_none : l.next = (.ok none, l') ↔ trimBlanks l.rest = [] ∧ l' = l.skipBlanks := by
  have rest : l.skipBlanks.rest = trimBlanks l.rest := rfl
  cases h : trimBlanks l.rest with
  | nil => simp [next, rest, h, eq_comm]
  | cons c cs =>
    simp only [next, rest, h]
    cases l.skipBlanks.readToken c cs with
    | mk outcome after => cases outcome <;> simp [Except.map]

/-- Blanks in front of a token only move it. -/
theorem next_blanks {blanks : List Char} (h : ∀ c ∈ blanks, isBlank c = true) (cs : List Char)
    (offset : Nat) (mode : LexMode) :
    next ⟨blanks ++ cs, offset, mode⟩ = next ⟨cs, offset + byteLength blanks, mode⟩ := by
  have same : skipBlanks ⟨blanks ++ cs, offset, mode⟩ =
      skipBlanks ⟨cs, offset + byteLength blanks, mode⟩ := by
    simp only [skipBlanks, trimBlanks, List.takeWhile_append_of_pos h,
      List.dropWhile_append_of_pos h, byteLength_append, Nat.add_assoc]
  simp only [next, same]

/-- Blanks at the end are skipped with those that follow. -/
theorem next_followed_of_end (h : l.next = (.ok none, l')) (rest : List Char) :
    (l.followed rest).next = next ⟨rest, l.offset + byteLength l.rest, l.mode⟩ := by
  obtain ⟨blank, -⟩ := next_eq_none.mp h
  have all : ∀ c ∈ l.rest, isBlank c = true := by simpa [trimBlanks] using blank
  exact next_blanks all rest l.offset l.mode

/-- The lexer `n` bytes further on. -/
def shift (n : Nat) (l : Lexer) : Lexer := { l with offset := l.offset + n }

/-- What was read, told `n` bytes further on. -/
def shifted {α : Type} (n : Nat) (x : Except LexError α × Lexer) : Except LexError α × Lexer :=
  (x.1.mapError (.shift n), x.2.shift n)

theorem shifted_eq_ok {α : Type} {n : Nat} {x : Except LexError α × Lexer} {a : α}
    (h : shifted n x = (.ok a, l')) : ∃ k, x = (.ok a, k) ∧ l' = k.shift n := by
  obtain ⟨outcome, k⟩ := x
  cases outcome with
  | error e => cases h
  | ok b =>
    cases h
    exact ⟨k, rfl, rfl⟩

theorem past_shift (n : Nat) (l : Lexer) (taken rest : List Char) (mode : LexMode) :
    (l.shift n).past taken rest mode = (l.past taken rest mode).shift n := by
  simp only [past, shift, Nat.add_right_comm]

theorem skipBlanks_shift (n : Nat) (l : Lexer) : (l.shift n).skipBlanks = l.skipBlanks.shift n := by
  simp only [skipBlanks, shift, Nat.add_right_comm]

section

variable (n : Nat) (l : Lexer) (c : Char) (cs : List Char)

theorem readOperand_shift : (l.shift n).readOperand c cs = shifted n (l.readOperand c cs) := by
  unfold readOperand
  split
  · rw [past_shift]
    rfl
  · split
    · rw [past_shift]
      rfl
    · rfl

theorem readRelation_shift : (l.shift n).readRelation = shifted n l.readRelation := by
  have rest : (l.shift n).rest = l.rest := rfl
  unfold readRelation
  rw [rest]
  split
  · simp only [past_shift]
    rfl
  · rfl

theorem readArgument_shift : (l.shift n).readArgument c cs = shifted n (l.readArgument c cs) := by
  have offset : (l.shift n).offset + 1 = l.offset + 1 + n := Nat.add_right_comm _ n 1
  unfold readArgument
  rw [offset]
  split
  · rename_i quote
    rw [quoted_shift (ne_backslash_of_quote quote)]
    cases quoted c (l.offset + 1) cs <;> rfl
  · split
    · rw [past_shift]
      rfl
    · rfl

theorem readConnector_shift :
    (l.shift n).readConnector c cs = shifted n (l.readConnector c cs) := by
  unfold readConnector
  split
  · rw [past_shift]
    rfl
  · split
    · rw [past_shift]
      rfl
    · rfl

theorem readToken_shift : (l.shift n).readToken c cs = shifted n (l.readToken c cs) := by
  have mode : (l.shift n).mode = l.mode := rfl
  unfold readToken
  rw [mode]
  split
  · exact readOperand_shift n l c cs
  · exact readRelation_shift n l
  · exact readArgument_shift n l c cs
  · exact readConnector_shift n l c cs

/-- What is read further on in a text is read there as at its start, with other positions. -/
theorem next_shift : (l.shift n).next = shifted n l.next := by
  have rest : (l.skipBlanks.shift n).rest = l.skipBlanks.rest := rfl
  simp only [next, skipBlanks_shift, rest]
  cases l.skipBlanks.rest with
  | nil => rfl
  | cons c cs =>
    simp only [readToken_shift]
    cases l.skipBlanks.readToken c cs with
    | mk outcome after => cases outcome <;> rfl

end

/-- What `n` calls give, those after an error and at the end of the input too. -/
def outcomes : Nat → Lexer → List (Except LexError (Option Token))
  | 0, _ => []
  | n + 1, l => l.next.1 :: outcomes n l.next.2

/-- Further on in a text every call gives the same, but for the positions of errors. -/
theorem outcomes_shift (n k : Nat) (l : Lexer) :
    (l.shift n).outcomes k = (l.outcomes k).map (Except.mapError (.shift n)) := by
  induction k generalizing l with
  | zero => rfl
  | succ k ih =>
    rw [outcomes, next_shift]
    exact congrArg _ (ih l.next.2)

/-- Where the text ends. -/
def finish (l : Lexer) : Nat := l.offset + byteLength l.rest

/-- The second lexer stands further on in the text of the first one, or where it stands. -/
def Ahead (l l' : Lexer) : Prop :=
  ∃ taken, taken ++ l'.rest = l.rest ∧ l.offset + byteLength taken = l'.offset

namespace Ahead

theorem refl (l : Lexer) : l.Ahead l := ⟨[], rfl, rfl⟩

theorem trans {k : Lexer} (h : l.Ahead l') (h' : l'.Ahead k) : l.Ahead k := by
  obtain ⟨taken, whole, stop⟩ := h
  obtain ⟨more, whole', stop'⟩ := h'
  refine ⟨taken ++ more, ?_, ?_⟩
  · rw [List.append_assoc, whole', whole]
  · rw [byteLength_append, ← Nat.add_assoc, stop, stop']

theorem finish_eq (h : l.Ahead l') : l'.finish = l.finish := by
  obtain ⟨taken, whole, stop⟩ := h
  rw [finish, finish, ← whole, ← stop, byteLength_append, Nat.add_assoc]

end Ahead

theorem ahead_skipBlanks (l : Lexer) : l.Ahead l.skipBlanks :=
  ⟨l.rest.takeWhile isBlank, List.takeWhile_append_dropWhile, rfl⟩

/-- What is expected behind a token hangs on the token only, and no more than what it goes past is
taken. -/
theorem next_leaves (h : l.next = (.ok (some t), l')) : l'.mode = t.nextMode ∧ l.Ahead l' := by
  obtain ⟨text, _, behind, _, whole, stop⟩ := next_consumes h
  exact ⟨behind, (ahead_skipBlanks l).trans ⟨text, whole, stop⟩⟩

/-- The first lexer reads the tokens and is then the second one. -/
inductive Prefix : Lexer → List Token → Lexer → Prop where
  | refl (l : Lexer) : Prefix l [] l
  | token {l l' k : Lexer} {t : Token} {ts : List Token} (read : l.next = (.ok (some t), l'))
    (more : Prefix l' ts k) : Prefix l (t :: ts) k

namespace Prefix

variable {k : Lexer}

theorem append (h : Prefix l ts l') (more : Prefix l' us k) : Prefix l (ts ++ us) k := by
  induction h with
  | refl l => exact more
  | token read _ ih => exact .token read (ih more)

theorem followed (fenced : Fenced rest) (h : Prefix l ts l') :
    Prefix (l.followed rest) ts (l'.followed rest) := by
  induction h with
  | refl l => exact .refl _
  | token read _ ih => exact .token (next_followed fenced read) ih

/-- Every remaining character is one of the text, behind what was read of it. -/
theorem ahead (h : Prefix l ts l') : l.Ahead l' := by
  induction h with
  | refl l => exact .refl l
  | token read _ ih => exact (next_leaves read).2.trans ih

theorem finish_eq (h : Prefix l ts l') : l'.finish = l.finish := h.ahead.finish_eq

theorem mode_eq (h : Prefix l (ts ++ [t]) l') : l'.mode = t.nextMode := by
  generalize same : ts ++ [t] = us at h
  induction h generalizing ts with
  | refl l => simp at same
  | token read more ih =>
    cases ts with
    | nil =>
      cases same
      cases more
      exact (next_leaves read).1
    | cons u ts =>
      cases same
      exact ih rfl

/-- Calls give the tokens in front first, and then what they give from there on. -/
theorem outcomes_eq (h : Prefix l ts l') (n : Nat) :
    l.outcomes (ts.length + n) = ts.map (fun t => .ok (some t)) ++ l'.outcomes n := by
  induction h with
  | refl l => simp
  | token read _ ih =>
    rw [List.length_cons, Nat.add_right_comm, outcomes, read, ih]
    rfl

/-- All tokens are these and those behind them. -/
theorem lexes_iff (h : Prefix l ts l') {all : List Token} :
    Lexes l all ↔ ∃ us, all = ts ++ us ∧ Lexes l' us := by
  induction h generalizing all with
  | refl l => simp
  | token read _ ih =>
    constructor
    · intro lexes
      cases lexes with
      | finish ended =>
        rw [read] at ended
        cases ended
      | token read' lexes =>
        rw [read] at read'
        cases read'
        obtain ⟨us, rfl, behind⟩ := ih.mp lexes
        exact ⟨us, rfl, behind⟩
    · rintro ⟨us, rfl, lexes⟩
      exact .token read (ih.mpr ⟨us, rfl, lexes⟩)

end Prefix

end Lexer

namespace Lexes

open Lexer

variable {l k : Lexer} {t : Token} {ts us : List Token} {rest : List Char}

/-- A text is lexed when its tokens lead to where the lexer finds the end of the input. -/
theorem iff_prefix : Lexes l ts ↔ ∃ l' e, Prefix l ts l' ∧ l'.next = (.ok none, e) := by
  constructor
  · intro h
    induction h with
    | @finish l e ended => exact ⟨l, e, .refl l, ended⟩
    | token read _ ih =>
      obtain ⟨l', e, more, ended⟩ := ih
      exact ⟨l', e, .token read more, ended⟩
  · rintro ⟨l', e, read, ended⟩
    exact read.lexes_iff.mpr ⟨[], by simp, .finish ended⟩

theorem of_next_eq (same : l.next = k.next) (h : Lexes k ts) : Lexes l ts := by
  cases h with
  | finish ended => exact .finish (same.trans ended)
  | token read more => exact .token (same.trans read) more

/-- Behind the tokens of a text the lexer reads on in what follows the text. -/
theorem followed (h : Lexes l (ts ++ [t])) (fenced : Fenced rest) :
    ∃ l', Prefix (l.followed rest) (ts ++ [t]) l' ∧
      l'.next = next ⟨rest, l.finish, t.nextMode⟩ := by
  obtain ⟨l', e, read, ended⟩ := iff_prefix.mp h
  refine ⟨l'.followed rest, read.followed fenced, ?_⟩
  rw [next_followed_of_end ended, ← read.mode_eq, ← read.finish_eq]
  rfl

theorem of_shift {n : Nat} (h : Lexes (l.shift n) ts) : Lexes l ts := by
  generalize same : l.shift n = k at h
  induction h generalizing l with
  | finish ended =>
    rw [← same, next_shift] at ended
    obtain ⟨_, found, _⟩ := shifted_eq_ok ended
    exact .finish found
  | token read _ ih =>
    rw [← same, next_shift] at read
    obtain ⟨_, found, further⟩ := shifted_eq_ok read
    exact .token found (ih further.symm)

theorem shift (n : Nat) (h : Lexes l ts) : Lexes (l.shift n) ts := by
  induction h with
  | @finish l l' ended =>
    refine @Lexes.finish _ (l'.shift n) ?_
    rw [next_shift, ended]
    rfl
  | token read _ ih =>
    refine .token ?_ ih
    rw [next_shift, read]
    rfl

/-- What is read does not hang on where it stands. -/
theorem moved {cs : List Char} {offset : Nat} {mode : LexMode} (h : Lexes ⟨cs, offset, mode⟩ ts)
    (offset' : Nat) : Lexes ⟨cs, offset', mode⟩ ts := by
  have start : Lexer.shift offset ⟨cs, 0, mode⟩ = ⟨cs, offset, mode⟩ := by simp [Lexer.shift]
  have target : Lexer.shift offset' ⟨cs, 0, mode⟩ = ⟨cs, offset', mode⟩ := by simp [Lexer.shift]
  rw [← start] at h
  rw [← target]
  exact h.of_shift.shift offset'

end Lexes

end EntityFilter

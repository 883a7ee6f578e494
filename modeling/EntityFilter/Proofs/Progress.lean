import EntityFilter.Proofs.Placement

namespace EntityFilter

open Text

namespace LexError

def position : LexError → Nat
  | unexpectedCharacter _ p _ => p
  | expectedRelation p => p
  | invalidArgument p => p
  | unterminatedString p => p
  | invalidEscape _ p => p

/-- The character that the error is about, if it names one. -/
def character? : LexError → Option Char
  | unexpectedCharacter c _ _ => some c
  | invalidEscape c _ => some c
  | _ => none

end LexError

namespace Lexer

variable {l l' : Lexer} {t : Token} {e : LexError} {c : Char} {cs : List Char}

/-- What is wrong begins with the character, where the lexer stands or further on. -/
structure Blames (l : Lexer) (e : LexError) (c : Char) : Prop where
  place : ∃ taken behind, taken ++ c :: behind = l.rest ∧ l.offset + byteLength taken = e.position
  character : ∀ d ∈ e.character?, d = c
  quote : ∀ p, e = .unterminatedString p →
    l.mode = .argument ∧ (c = '\'' ∨ c = '"') ∧ p = l.offset

theorem readOperand_fails (here : l.rest = c :: cs) (h : l.readOperand c cs = (.error e, l')) :
    l.Ahead l' ∧ l.Blames e c := by
  unfold readOperand at h
  split at h
  · cases h
  · split at h <;> cases h
    refine ⟨.refl l, ⟨[], cs, here.symm, rfl⟩, ?_, nofun⟩
    rintro d ⟨⟩
    rfl

theorem readRelation_fails (here : l.rest = c :: cs) (h : l.readRelation = (.error e, l')) :
    l.Ahead l' ∧ l.Blames e c := by
  unfold readRelation at h
  split at h <;> cases h
  exact ⟨.refl l, ⟨[], cs, here.symm, rfl⟩, nofun, nofun⟩

/-- An argument that cannot be read is blamed on its first character or on one that it escapes. -/
theorem readArgument_fails (mode : l.mode = .argument) (here : l.rest = c :: cs)
    (h : l.readArgument c cs = (.error e, l')) : l.Ahead l' ∧ ∃ d, l.Blames e d := by
  by_cases quote : c = '\'' ∨ c = '"'
  · obtain ⟨body, text, tail, spells, halts, rfl⟩ := Lexeme.exists_units c cs
    cases halts with
    | closing rest =>
      rw [readArgument_closing quote spells] at h
      cases h
    | @refused d inescapable rest =>
      rw [readArgument_refused quote spells inescapable] at h
      cases h
      have whole : (c :: body ++ ['\\']) ++ d :: rest = l.rest := by simp [here]
      refine ⟨⟨_, whole, rfl⟩, d, ⟨_, rest, whole, rfl⟩, ?_, nofun⟩
      rintro x ⟨⟩
      rfl
    | finish short =>
      rw [readArgument_unterminated quote spells l short] at h
      cases h
      have whole : (c :: (body ++ tail)) ++ [] = l.rest := by rw [List.append_nil, here]
      refine ⟨⟨_, whole, rfl⟩, c, ⟨[], _, here.symm, rfl⟩, nofun, ?_⟩
      rintro p ⟨⟩
      exact ⟨mode, quote, rfl⟩
  · unfold readArgument at h
    rw [if_neg quote] at h
    split at h <;> cases h
    exact ⟨.refl l, c, ⟨[], cs, here.symm, rfl⟩, nofun, nofun⟩

theorem readConnector_fails (here : l.rest = c :: cs) (h : l.readConnector c cs = (.error e, l')) :
    l.Ahead l' ∧ l.Blames e c := by
  unfold readConnector at h
  split at h
  · cases h
  · split at h <;> cases h
    refine ⟨.refl l, ⟨[], cs, here.symm, rfl⟩, ?_, nofun⟩
    rintro d ⟨⟩
    rfl

/-- An error tells of a character that was still in front of the lexer. -/
theorem readToken_fails (here : l.rest = c :: cs) (h : l.readToken c cs = (.error e, l')) :
    l.Ahead l' ∧ ∃ d, l.Blames e d := by
  unfold readToken at h
  split at h
  · exact (readOperand_fails here h).imp_right (⟨c, ·⟩)
  · exact (readRelation_fails here h).imp_right (⟨c, ·⟩)
  · rename_i mode
    exact readArgument_fails mode here h
  · exact (readConnector_fails here h).imp_right (⟨c, ·⟩)

/-- A call fails for what stands behind the blanks. -/
theorem next_fails (h : l.next = (.error e, l')) :
    l.Ahead l' ∧ ∃ d, l.skipBlanks.Blames e d := by
  cases trimmed : l.skipBlanks.rest with
  | nil => simp [next, trimmed] at h
  | cons c cs =>
    cases read : l.skipBlanks.readToken c cs with
    | mk outcome after =>
      cases outcome with
      | ok t => simp [next, trimmed, read, Except.map] at h
      | error x =>
        simp only [next, trimmed, read, Except.map, Prod.mk.injEq, Except.error.injEq] at h
        obtain ⟨rfl, rfl⟩ := h
        obtain ⟨ahead, blames⟩ := readToken_fails trimmed read
        exact ⟨(ahead_skipBlanks l).trans ahead, blames⟩

/-- No call goes back. -/
theorem next_ahead (l : Lexer) : l.Ahead l.next.2 := by
  cases h : l.next with
  | mk outcome l' =>
    cases outcome with
    | error e => exact (next_fails h).1
    | ok token =>
      cases token with
      | none =>
        obtain ⟨_, rfl⟩ := next_eq_none.mp h
        exact ahead_skipBlanks l
      | some t => exact (next_leaves h).2

theorem Ahead.offset_le (h : l.Ahead l') : l.offset ≤ l'.offset := by
  obtain ⟨taken, _, stop⟩ := h
  omega

/-- A token takes the lexer further on. -/
theorem offset_lt_of_next (h : l.next = (.ok (some t), l')) : l.offset < l'.offset := by
  obtain ⟨taken, whole, stop⟩ := (next_leaves h).2
  have shorter := (next_eq_ok h).1
  have some : byteLength taken ≠ 0 := by
    intro none
    rw [eq_nil_of_byteLength none, List.nil_append] at whole
    rw [whole] at shorter
    exact Nat.lt_irrefl _ shorter
  omega

/-- The lexer after `n` calls, whatever they gave. -/
def after (l : Lexer) : Nat → Lexer
  | 0 => l
  | n + 1 => (l.after n).next.2

theorem ahead_after (l : Lexer) {m n : Nat} (h : m ≤ n) : (l.after m).Ahead (l.after n) := by
  induction h with
  | refl => exact .refl _
  | step _ ih => exact ih.trans (next_ahead _)

/-- Calls that all give tokens take the lexer as many bytes on, at least. -/
theorem le_offset_after {n : Nat} (h : ∀ m < n, ∃ t, (l.after m).next.1 = .ok (some t)) :
    n ≤ (l.after n).offset := by
  induction n with
  | zero => exact Nat.zero_le _
  | succ n ih =>
    have before := ih fun m hm => h m (Nat.lt_succ_of_lt hm)
    obtain ⟨t, found⟩ := h n (Nat.lt_succ_self n)
    have further : (l.after n).offset < (l.after (n + 1)).offset :=
      offset_lt_of_next (Prod.ext found rfl)
    omega

/-- Wherever the lexer stands, the query goes on with the text it has still to read. -/
theorem Ahead.begins {query : String} (h : (ofQuery query).Ahead l) :
    BeginsAt query.toList l.offset l.rest := by
  obtain ⟨taken, whole, stop⟩ := h
  refine ⟨taken, whole, ?_⟩
  rw [← stop]
  exact (Nat.zero_add _).symm

end Lexer

theorem Text.BeginsAt.le_byteSize {query : String} {position : Nat} {part : List Char}
    (h : BeginsAt query.toList position part) : position ≤ query.utf8ByteSize := by
  obtain ⟨before, whole, rfl⟩ := h
  rw [← byteLength_toList, ← whole, byteLength_append]
  exact Nat.le_add_right _ _

theorem Text.BeginsAt.behind {cs part : List Char} {position : Nat} (taken : List Char)
    (h : BeginsAt cs position (taken ++ part)) :
    BeginsAt cs (position + byteLength taken) part := by
  obtain ⟨before, whole, rfl⟩ := h
  exact ⟨before ++ taken, by rw [List.append_assoc, whole], byteLength_append before taken⟩

namespace Lexer

/-- The lexer of a query after `n` calls. -/
def called (query : String) (n : Nat) : Lexer := (Lexer.ofQuery query).after n

theorem ahead_called (query : String) {m n : Nat} (h : m ≤ n) : (called query m).Ahead (called query n) :=
  ahead_after _ h

/-- After any number of calls the lexer stands between two characters of the query. -/
theorem begins_called (query : String) (n : Nat) :
    BeginsAt query.toList (called query n).offset (called query n).rest :=
  (ahead_called query (Nat.zero_le n)).begins

/-- Before any call the lexer stands between two characters of the query, or at an end of it, and no
call takes it back. A token takes it further on, so one of the first calls gives none. A call that
fails blames a character of the query that the lexer has not gone past, the one that it names if it
names any; for a string without an end this is its opening quote. -/
theorem ofQuery_progresses (query : String) (n : Nat) :
    (BeginsAt query.toList (called query n).offset (called query n).rest ∧
      (called query n).offset ≤ query.utf8ByteSize) ∧
    (∀ m ≤ n, (called query m).offset ≤ (called query n).offset) ∧
    (∀ t, (called query n).next.1 = .ok (some t) →
      (called query n).offset < (called query (n + 1)).offset) ∧
    (∃ m ≤ query.utf8ByteSize, ∀ t, (called query m).next.1 ≠ .ok (some t)) ∧
    ∀ e, (called query n).next.1 = .error e → ∃ c behind,
      BeginsAt query.toList e.position (c :: behind) ∧ (called query n).offset ≤ e.position ∧
      (∀ d ∈ e.character?, d = c) ∧
      ∀ p, e = .unterminatedString p → (called query n).mode = .argument ∧
        (c = '\'' ∨ c = '"') ∧ p = (called query n).skipBlanks.offset := by
  refine ⟨⟨begins_called query n, (begins_called query n).le_byteSize⟩, ?_, ?_, ?_, ?_⟩
  · intro m hm
    exact (ahead_called query hm).offset_le
  · intro t found
    exact offset_lt_of_next (Prod.ext found rfl)
  · by_contra all
    have tokens : ∀ m < query.utf8ByteSize + 1, ∃ t, (called query m).next.1 = .ok (some t) := by
      intro m hm
      by_contra none
      exact all ⟨m, Nat.le_of_lt_succ hm, fun t found => none ⟨t, found⟩⟩
    have far : query.utf8ByteSize + 1 ≤ (called query (query.utf8ByteSize + 1)).offset :=
      le_offset_after tokens
    have bound := (begins_called query (query.utf8ByteSize + 1)).le_byteSize
    omega
  · intro e failed
    obtain ⟨_, c, ⟨taken, behind, whole, place⟩, character, quote⟩ :=
      next_fails (Prod.ext failed rfl)
    have skipped := ahead_skipBlanks (called query n)
    have start := ((ahead_called query (Nat.zero_le n)).trans skipped).begins
    have blanks := skipped.offset_le
    refine ⟨c, behind, ?_, by omega, character, quote⟩
    rw [← place]
    exact (whole ▸ start).behind taken

/-- Behind the character that no backslash may stand before, the lexer reads on: here up to a quote
that nothing closes. -/
example : (Lexer.ofQuery "town=='\\ 'x").outcomes 5 =
    [.ok (some (.selector "town")), .ok (some (.relation .eq)), .error (.invalidEscape ' ' 8),
      .error (.unterminatedString 9), .ok none] := by cbv

end Lexer

end EntityFilter

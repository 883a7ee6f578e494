import EntityFilter.Query.Token

namespace EntityFilter

open Text

namespace Lexeme

theorem isEscapable_iff {c : Char} : isEscapable c ↔ c ∈ ['\'', '"', '\\'] := by
  simp [isEscapable, or_assoc]

/-- Between quotes `q` the characters stand for the text, unit by unit. -/
inductive Spells (q : Char) : List Char → List Char → Prop where
  | nil : Spells q [] []
  | plain {c : Char} {body text : List Char} (notQuote : c ≠ q) (notBackslash : c ≠ '\\')
    (more : Spells q body text) : Spells q (c :: body) (c :: text)
  | escaped {c : Char} {body text : List Char} (escapable : c ∈ ['\'', '"', '\\'])
    (more : Spells q body text) : Spells q ('\\' :: c :: body) (c :: text)

/-- Where no unit begins: at the closing quote, at a backslash before any other character, and at
the end of the input or a backslash before it. -/
inductive Halts (q : Char) : List Char → Prop where
  | closing (rest : List Char) : Halts q (q :: rest)
  | refused {c : Char} (inescapable : c ∉ ['\'', '"', '\\']) (rest : List Char) :
    Halts q ('\\' :: c :: rest)
  | finish {tail : List Char} (short : tail = [] ∨ tail = ['\\']) : Halts q tail

/-- Whatever stands behind the opening quote, units come first, and then none begins. -/
theorem exists_units (q : Char) (cs : List Char) :
    ∃ body text tail, Spells q body text ∧ Halts q tail ∧ body ++ tail = cs := by
  -- The cases are the reader's own; where it stands plays no part in them.
  induction 0, cs using quoted.induct q with
  | case1 => exact ⟨[], [], [], .nil, .finish (.inl rfl), rfl⟩
  | case2 offset cs => exact ⟨[], [], _, .nil, .closing cs, rfl⟩
  | case3 => exact ⟨[], [], _, .nil, .finish (.inr rfl), rfl⟩
  | case4 offset c cs hc after hq ih =>
    obtain ⟨body, text, tail, spells, halts, rfl⟩ := ih
    exact ⟨_, _, tail, .escaped (isEscapable_iff.mp hc) spells, halts, rfl⟩
  | case5 offset c cs hc =>
    exact ⟨[], [], _, .nil, .refused (mt isEscapable_iff.mpr hc) cs, rfl⟩
  | case6 offset c cs after hq hc ih =>
    obtain ⟨body, text, tail, spells, halts, rfl⟩ := ih
    exact ⟨_, _, tail, .plain hq hc spells, halts, rfl⟩

/-- Every text can be written: with a backslash in front of each quote and each backslash. -/
theorem spells_escape (text : List Char) : Spells '\'' (Literal.escape text) text := by
  induction text with
  | nil => exact .nil
  | cons c text ih =>
    by_cases hc : c = '\\' ∨ c = '\''
    · have escaped : Literal.escape (c :: text) = '\\' :: c :: Literal.escape text := by
        simp [Literal.escape, hc]
      have escapable : c ∈ ['\'', '"', '\\'] := by rcases hc with rfl | rfl <;> decide
      rw [escaped]
      exact .escaped escapable ih
    · have plain : Literal.escape (c :: text) = c :: Literal.escape text := by
        simp [Literal.escape, hc]
      simp only [not_or] at hc
      rw [plain]
      exact .plain hc.2 hc.1 ih

/-- What reading comes to with units in front that stand for the text. -/
def Quoted.prepend (text : List Char) : Quoted → Quoted
  | closed more rest stop => closed (text ++ more) rest stop
  | badEscape c rest stop => badEscape c rest stop
  | unterminated stop => unterminated stop

theorem Quoted.prepend_nil (r : Quoted) : r.prepend [] = r := by
  cases r <;> rfl

theorem Quoted.cons_prepend (c : Char) (text : List Char) (r : Quoted) :
    (r.prepend text).cons c = r.prepend (c :: text) := by
  cases r <;> rfl

/-- What reading comes to `n` bytes further on. -/
def Quoted.shift (n : Nat) : Quoted → Quoted
  | closed text rest stop => closed text rest (stop + n)
  | badEscape c rest stop => badEscape c rest (stop + n)
  | unterminated stop => unterminated (stop + n)

section

variable {q : Char} (hq : q ≠ '\\') {body text : List Char}

include hq

/-- Reading goes past the units and keeps their text. -/
theorem Spells.quoted_append (h : Spells q body text) (offset : Nat) (cs : List Char) :
    quoted q offset (body ++ cs) = (quoted q (offset + byteLength body) cs).prepend text := by
  induction h generalizing offset with
  | nil => exact (Quoted.prepend_nil _).symm
  | @plain c body text notQuote notBackslash _ ih =>
    rw [List.cons_append, quoted.eq_def]
    simp only [notQuote, notBackslash, if_false]
    rw [ih, Nat.add_assoc, Quoted.cons_prepend, byteLength_cons]
  | @escaped c body text escapable _ ih =>
    have bytes : offset + '\\'.utf8Size + c.utf8Size + byteLength body =
        offset + byteLength ('\\' :: c :: body) := by
      simp only [byteLength_cons, Nat.add_assoc]
    rw [List.cons_append, List.cons_append, quoted.eq_def]
    simp only [hq.symm, isEscapable_iff.mpr escapable, if_false, if_true]
    rw [ih, bytes, Quoted.cons_prepend]

/-- Reading stops at the quote that no unit begins with. -/
theorem Spells.quoted_closing (h : Spells q body text) (offset : Nat) (rest : List Char) :
    quoted q offset (body ++ q :: rest) =
      .closed text rest (offset + byteLength (body ++ [q])) := by
  have here : quoted q (offset + byteLength body) (q :: rest) =
      .closed [] rest (offset + byteLength body + q.utf8Size) := by
    rw [quoted.eq_def]
    simp
  rw [h.quoted_append hq, here, Quoted.prepend, List.append_nil, byteLength_append, Nat.add_assoc]
  rfl

/-- Reading stops at a backslash that stands before anything but a quote or another one. -/
theorem Spells.quoted_refused (h : Spells q body text) {c : Char}
    (inescapable : c ∉ ['\'', '"', '\\']) (offset : Nat) (rest : List Char) :
    quoted q offset (body ++ '\\' :: c :: rest) =
      .badEscape c (c :: rest) (offset + byteLength (body ++ ['\\'])) := by
  have here : quoted q (offset + byteLength body) ('\\' :: c :: rest) =
      .badEscape c (c :: rest) (offset + byteLength body + '\\'.utf8Size) := by
    rw [quoted.eq_def]
    simp [hq.symm, mt isEscapable_iff.mp inescapable]
  rw [h.quoted_append hq, here, Quoted.prepend, byteLength_append, Nat.add_assoc]
  rfl

/-- Reading stops where the characters run out, be it behind a backslash. -/
theorem Spells.quoted_finish (h : Spells q body text) (offset : Nat) {tail : List Char}
    (short : tail = [] ∨ tail = ['\\']) :
    quoted q offset (body ++ tail) = .unterminated (offset + byteLength (body ++ tail)) := by
  have here : quoted q (offset + byteLength body) tail =
      .unterminated (offset + byteLength body + byteLength tail) := by
    rcases short with rfl | rfl
    · rfl
    · simp [quoted, hq.symm, byteLength]
  rw [h.quoted_append hq, here, Quoted.prepend, byteLength_append, Nat.add_assoc]

variable {offset stop : Nat} {cs more : List Char}

/-- What was read to the closing quote was written in units. A text can be written in several ways,
and it is read from all of them. -/
theorem spells_of_closed (h : quoted q offset cs = .closed text more stop) :
    ∃ body, Spells q body text ∧ cs = body ++ q :: more ∧
      stop = offset + byteLength (body ++ [q]) := by
  obtain ⟨body, text, tail, spells, halts, rfl⟩ := exists_units q cs
  cases halts with
  | closing rest =>
    rw [spells.quoted_closing hq] at h
    cases h
    exact ⟨body, spells, rfl, rfl⟩
  | refused inescapable rest =>
    rw [spells.quoted_refused hq inescapable] at h
    cases h
  | finish short =>
    rw [spells.quoted_finish hq _ short] at h
    cases h

theorem quoted_followed (h : quoted q offset cs = .closed text more stop) (rest : List Char) :
    quoted q offset (cs ++ rest) = .closed text (more ++ rest) stop := by
  obtain ⟨body, spells, rfl, rfl⟩ := spells_of_closed hq h
  rw [List.append_assoc, List.cons_append]
  exact spells.quoted_closing hq offset (more ++ rest)

theorem quoted_shift (n : Nat) :
    quoted q (offset + n) cs = (quoted q offset cs).shift n := by
  obtain ⟨body, text, tail, spells, halts, rfl⟩ := exists_units q cs
  cases halts with
  | closing rest =>
    rw [spells.quoted_closing hq, spells.quoted_closing hq, Nat.add_right_comm]
    rfl
  | refused inescapable rest =>
    rw [spells.quoted_refused hq inescapable, spells.quoted_refused hq inescapable,
      Nat.add_right_comm]
    rfl
  | finish short =>
    rw [spells.quoted_finish hq _ short, spells.quoted_finish hq _ short, Nat.add_right_comm]
    rfl

end

end Lexeme

namespace Lexer

open Lexeme

section

variable {q : Char} (quote : q = '\'' ∨ q = '"') {body text : List Char}

include quote

theorem ne_backslash_of_quote : q ≠ '\\' := by
  rcases quote with rfl | rfl <;> decide

theorem utf8Size_of_quote : q.utf8Size = 1 := by
  rcases quote with rfl | rfl <;> rfl

theorem readArgument_closing (h : Spells q body text) (l : Lexer) (rest : List Char) :
    l.readArgument q (body ++ q :: rest) =
      (.ok (.argument (.ofQuoted (String.ofList text))),
        l.past (q :: body ++ [q]) rest .connector) := by
  rw [readArgument, if_pos quote, h.quoted_closing (ne_backslash_of_quote quote)]
  simp only [past, List.cons_append, byteLength_cons, utf8Size_of_quote quote, Nat.add_assoc]

theorem readArgument_refused (h : Spells q body text) {c : Char}
    (inescapable : c ∉ ['\'', '"', '\\']) (l : Lexer) (rest : List Char) :
    l.readArgument q (body ++ '\\' :: c :: rest) =
      (.error (.invalidEscape c (l.offset + byteLength (q :: body ++ ['\\']))),
        l.past (q :: body ++ ['\\']) (c :: rest) .argument) := by
  rw [readArgument, if_pos quote, h.quoted_refused (ne_backslash_of_quote quote) inescapable]
  simp only [past, List.cons_append, byteLength_cons, utf8Size_of_quote quote, Nat.add_assoc]

theorem readArgument_unterminated (h : Spells q body text) (l : Lexer) {tail : List Char}
    (short : tail = [] ∨ tail = ['\\']) :
    l.readArgument q (body ++ tail) =
      (.error (.unterminatedString l.offset), l.past (q :: (body ++ tail)) [] .argument) := by
  rw [readArgument, if_pos quote, h.quoted_finish (ne_backslash_of_quote quote) _ short]
  simp only [past, byteLength_cons, utf8Size_of_quote quote, Nat.add_assoc]

theorem next_quote (offset : Nat) (cs : List Char) :
    next ⟨q :: cs, offset, .argument⟩ =
      ((readArgument ⟨q :: cs, offset, .argument⟩ q cs).1.map some,
        (readArgument ⟨q :: cs, offset, .argument⟩ q cs).2) := by
  have visible : isBlank q = false := by rcases quote with rfl | rfl <;> rfl
  exact next_of_not_blank visible cs offset .argument

theorem next_closing (h : Spells q body text) (offset : Nat) (rest : List Char) :
    next ⟨q :: (body ++ q :: rest), offset, .argument⟩ =
      (.ok (some (.argument (.ofQuoted (String.ofList text)))),
        ⟨rest, offset + byteLength (q :: body ++ [q]), .connector⟩) := by
  rw [next_quote quote, readArgument_closing quote h]
  rfl

/-- The position of a wrong escape is that of the character behind the backslash, where the lexer
stops. -/
theorem next_refused (h : Spells q body text) {c : Char} (inescapable : c ∉ ['\'', '"', '\\'])
    (offset : Nat) (rest : List Char) :
    next ⟨q :: (body ++ '\\' :: c :: rest), offset, .argument⟩ =
      (.error (.invalidEscape c (offset + byteLength (q :: body ++ ['\\']))),
        ⟨c :: rest, offset + byteLength (q :: body ++ ['\\']), .argument⟩) := by
  rw [next_quote quote, readArgument_refused quote h inescapable]
  rfl

/-- A quote that is not closed takes the whole of the text with it. -/
theorem next_unterminated (h : Spells q body text) (offset : Nat) {tail : List Char}
    (short : tail = [] ∨ tail = ['\\']) :
    next ⟨q :: (body ++ tail), offset, .argument⟩ =
      (.error (.unterminatedString offset),
        ⟨[], offset + byteLength (q :: (body ++ tail)), .argument⟩) := by
  rw [next_quote quote, readArgument_unterminated quote h _ short]
  rfl

end

/-- What a text is shown as reads back to it. -/
theorem next_display (text : String) (offset : Nat) (rest : List Char) :
    next ⟨(Literal.ofQuoted text).display.toList ++ rest, offset, .argument⟩ =
      (.ok (some (.argument (.ofQuoted text))),
        ⟨rest, offset + (Literal.ofQuoted text).display.utf8ByteSize, .connector⟩) := by
  have shown : (Literal.ofQuoted text).display.toList =
      '\'' :: Literal.escape text.toList ++ ['\''] := by
    simp [Literal.display, Literal.ofQuoted, Literal.chars, Literal.suffixText]
  have read := next_closing (.inl rfl) (spells_escape text.toList) offset rest
  rw [← byteLength_toList, shown, List.append_assoc, List.cons_append]
  rwa [String.ofList_toList] at read

/-- Behind an opening quote a text is read just where units that spell it end at a closing quote,
and the lexer stands behind that. It fails at the first backslash that does not begin a unit, with
the character behind it and where that stands, and where no quote and no such backslash comes, with
where the opening quote stands. What a text is shown as reads back to it. -/
theorem next_quoted_iff {q : Char} (quote : q = '\'' ∨ q = '"') (offset : Nat) (cs : List Char) :
    (∀ t l', next ⟨q :: cs, offset, .argument⟩ = (.ok t, l') ↔
      ∃ body text rest, Spells q body text ∧ cs = body ++ q :: rest ∧
        t = some (.argument (.ofQuoted (String.ofList text))) ∧
        l' = ⟨rest, offset + byteLength (q :: body ++ [q]), .connector⟩) ∧
    (∀ e l', next ⟨q :: cs, offset, .argument⟩ = (.error e, l') ↔
      (∃ body text c rest, Spells q body text ∧ cs = body ++ '\\' :: c :: rest ∧
        c ∉ ['\'', '"', '\\'] ∧
        e = .invalidEscape c (offset + byteLength (q :: body ++ ['\\'])) ∧
        l' = ⟨c :: rest, offset + byteLength (q :: body ++ ['\\']), .argument⟩) ∨
      ∃ body text, Spells q body text ∧ (cs = body ∨ cs = body ++ ['\\']) ∧
        e = .unterminatedString offset ∧
        l' = ⟨[], offset + byteLength (q :: cs), .argument⟩) ∧
    ∀ text rest, next ⟨(Literal.ofQuoted text).display.toList ++ rest, offset, .argument⟩ =
      (.ok (some (.argument (.ofQuoted text))),
        ⟨rest, offset + (Literal.ofQuoted text).display.utf8ByteSize, .connector⟩) := by
  refine ⟨?_, ?_, ?_⟩
  · intro t l'
    constructor
    · intro h
      obtain ⟨body, text, tail, spells, halts, rfl⟩ := exists_units q cs
      cases halts with
      | closing rest =>
        rw [next_closing quote spells] at h
        cases h
        exact ⟨body, text, rest, spells, rfl, rfl, rfl⟩
      | refused inescapable rest =>
        rw [next_refused quote spells inescapable] at h
        cases h
      | finish short =>
        rw [next_unterminated quote spells _ short] at h
        cases h
    · rintro ⟨body, text, rest, spells, rfl, rfl, rfl⟩
      exact next_closing quote spells offset rest
  · intro e l'
    constructor
    · intro h
      obtain ⟨body, text, tail, spells, halts, rfl⟩ := exists_units q cs
      cases halts with
      | closing rest =>
        rw [next_closing quote spells] at h
        cases h
      | refused inescapable rest =>
        rw [next_refused quote spells inescapable] at h
        cases h
        exact .inl ⟨body, text, _, rest, spells, rfl, inescapable, rfl, rfl⟩
      | finish short =>
        rw [next_unterminated quote spells _ short] at h
        cases h
        refine .inr ⟨body, text, spells, ?_, rfl, rfl⟩
        simpa using short
    · rintro (⟨body, text, c, rest, spells, rfl, inescapable, rfl, rfl⟩ |
        ⟨body, text, spells, rfl | rfl, rfl, rfl⟩)
      · exact next_refused quote spells inescapable offset rest
      · simpa using next_unterminated quote spells offset (.inl rfl)
      · exact next_unterminated quote spells offset (.inr rfl)
  · intro text rest
    exact next_display text offset rest

/-- A backslash that may stand where it does, and one that may not, before a character of two
bytes. -/
theorem next_quoted_iff_of_clinic :
    ('\'' = '\'' ∨ '\'' = '"') ∧
      next ⟨['\'', '\\', '"', 'C', 'a', 'f', '\\', 'é', '\''], 6, .argument⟩ =
        (.error (.invalidEscape 'é' 13), ⟨['é', '\''], 13, .argument⟩) := by
  have spells : Spells '\'' ['\\', '"', 'C', 'a', 'f'] ['"', 'C', 'a', 'f'] :=
    .escaped (by decide) (.plain (by decide) (by decide) (.plain (by decide) (by decide)
      (.plain (by decide) (by decide) .nil)))
  exact ⟨.inl rfl, ((next_quoted_iff (.inl rfl) 6 _).2.1 _ _).mpr
    (.inl ⟨_, _, 'é', ['\''], spells, rfl, by decide, rfl, rfl⟩)⟩

end Lexer

end EntityFilter

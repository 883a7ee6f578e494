import EntityFilter.Query.Token
import EntityFilter.Proofs.BareArguments
import EntityFilter.Proofs.Lexemes
import EntityFilter.Proofs.QuotedTexts

namespace EntityFilter

open Text Lexeme

namespace Lexer

theorem not_isBlank_of_trimBlanks {c : Char} {cs ds : List Char} (h : trimBlanks cs = c :: ds) :
    isBlank c = false := by
  have first := List.head?_dropWhile_not isBlank cs
  unfold trimBlanks at h
  rw [h] at first
  exact first

/-- A token is read behind the blanks, from a character that is none. -/
theorem next_eq_some {l l' : Lexer} {t : Token} :
    l.next = (.ok (some t), l') ↔ ∃ c cs, trimBlanks l.rest = c :: cs ∧
      l.skipBlanks.readToken c cs = (.ok t, l') := by
  have rest : l.skipBlanks.rest = trimBlanks l.rest := rfl
  cases h : trimBlanks l.rest with
  | nil => simp [next, rest, h]
  | cons c cs =>
    simp only [next, rest, h, List.cons.injEq]
    cases hr : l.skipBlanks.readToken c cs with
    | mk outcome after =>
      constructor
      · intro found
        cases outcome with
        | error e => cases found
        | ok t =>
          cases found
          exact ⟨c, cs, ⟨rfl, rfl⟩, hr⟩
      · rintro ⟨_, _, ⟨rfl, rfl⟩, found⟩
        rw [hr] at found
        cases found
        rfl

/-- Wherever the lexer stands in front of `cs` it reads `t` and goes on in front of `rest`. -/
def Reads (mode : LexMode) (cs : List Char) (t : Token) (mode' : LexMode) (rest : List Char) : Prop :=
  ∀ offset, ∃ offset', next ⟨cs, offset, mode⟩ = (.ok (some t), ⟨rest, offset', mode'⟩)

theorem reads_cons {c : Char} (hc : isBlank c = false) {cs rest : List Char} {mode mode' : LexMode}
    {t : Token} (h : ∀ offset, ∃ offset',
      readToken ⟨c :: cs, offset, mode⟩ c cs = (.ok t, ⟨rest, offset', mode'⟩)) :
    Reads mode (c :: cs) t mode' rest := by
  intro offset
  obtain ⟨offset', h⟩ := h offset
  exact ⟨offset', by rw [next_of_not_blank hc, h]; rfl⟩

theorem reads_opening (cs : List Char) : Reads .selector ('(' :: cs) .opening .selector cs :=
  reads_cons rfl fun _ => ⟨_, rfl⟩

theorem reads_closing (cs : List Char) : Reads .connector (')' :: cs) .closing .connector cs :=
  reads_cons rfl fun _ => ⟨_, rfl⟩

theorem reads_connector (c : Connector) (cs : List Char) :
    Reads .connector (c.symbol :: cs) (.connector c) .selector cs := by
  cases c <;> exact reads_cons rfl fun _ => ⟨_, rfl⟩

theorem reads_relation (r : Relation) (cs : List Char) :
    Reads .relation (r.symbol.toList ++ cs) (.relation r) .argument cs := by
  obtain ⟨c, ds, hr, hc⟩ : ∃ c ds, r.symbol.toList = c :: ds ∧ isBlank c = false := by
    cases r <;> exact ⟨_, _, rfl, rfl⟩
  have found := relation?_append r cs
  rw [hr, List.cons_append] at found ⊢
  apply reads_cons hc
  intro offset
  exact ⟨offset + byteLength r.symbol.toList, by simp [readToken, readRelation, found, hr, past]⟩

theorem reads_selector {s : String} (h : IsSelector s.toList) {rest : List Char}
    (off : selectorRest rest = 0) :
    Reads .selector (s.toList ++ rest) (.selector s) .relation rest := by
  have split := h.split_append off
  obtain ⟨c, ds, hs, hc⟩ := h.head
  have opening : c ≠ '(' := by
    rintro rfl
    cases hc
  rw [hs, List.cons_append] at split ⊢
  apply reads_cons (not_isBlank_of_isIdentifierStart hc)
  intro offset
  refine ⟨offset + byteLength s.toList, ?_⟩
  simp only [readToken, readOperand, opening, if_false, split, past, ← hs, String.ofList_toList]

theorem reads_quoted (text : String) (rest : List Char) :
    Reads .argument ((Literal.ofQuoted text).chars ++ rest) (.argument (.ofQuoted text)) .connector
      rest := by
  intro offset
  have read := next_display text offset rest
  rw [Literal.display, String.toList_ofList] at read
  exact ⟨_, read⟩

/-- The literal is read from the text, which no blank or quote starts. -/
structure Standing (l : Literal) (text : List Char) : Prop where
  start : ∀ c ∈ text.head?, isBlank c = false ∧ c ≠ '\'' ∧ c ≠ '"'
  whole : bare? text = some ⟨l, text, []⟩

/-- A literal that is read from a text is read from it in front of whatever ends it. -/
theorem Standing.reads {l : Literal} {text : List Char} (h : Standing l text) {rest : List Char}
    (ended : Ended rest) : Reads .argument (text ++ rest) (.argument l) .connector rest := by
  have read := bare?_append ended h.whole
  cases text with
  | nil =>
    have := h.whole
    cases this
  | cons c cs =>
    obtain ⟨hc, single, double⟩ := h.start c rfl
    rw [List.cons_append] at read
    apply reads_cons hc
    intro offset
    refine ⟨offset + byteLength (c :: cs), ?_⟩
    simp [readToken, readArgument, single, double, read, Bare.followed, past]

/-- A literal that was read is read from its own text too. -/
theorem Standing.own {l : Literal} {text : List Char} (h : Standing l text) : Standing l l.chars := by
  have read := h.whole
  -- With the fields in their places the reader itself would be unfolded to compare them.
  generalize same : (⟨l, text, []⟩ : Bare) = b at read
  obtain ⟨_, _, _, head⟩ := bare?_taken read
  have own := bare?_chars read
  subst same
  exact ⟨fun c hc => h.start c (head ▸ hc), own⟩

end Lexer

/-- In argument position the text of the literal is read as that literal, to its end. -/
def Literal.LexesBack (l : Literal) : Prop :=
  (Lexer.next ⟨l.chars, 0, .argument⟩).1 = .ok (some (.argument l)) ∧
    (Lexer.next ⟨l.chars, 0, .argument⟩).2.rest = []

instance (l : Literal) : Decidable l.LexesBack :=
  match h : Lexer.next ⟨l.chars, 0, .argument⟩ with
  | (.ok t, after) =>
    decidable_of_iff (t = some (.argument l) ∧ after.rest = []) (by simp [Literal.LexesBack, h])
  | (.error _, _) => .isFalse (by simp [Literal.LexesBack, h])

theorem Lexer.Standing.lexesBack {l : Literal} (h : Standing l l.chars) : l.LexesBack := by
  obtain ⟨offset, read⟩ := h.reads Closes.finish.ended 0
  rw [List.append_nil] at read
  rw [Literal.LexesBack, read]
  exact ⟨rfl, rfl⟩

def Literal.Printable (l : Literal) : Prop :=
  (l.quoted = true ∧ l.suffix = none) ∨ (l.quoted = false ∧ l.LexesBack)

instance (l : Literal) : Decidable l.Printable := inferInstanceAs (Decidable (_ ∨ _))

namespace Token

def Printable : Token → Prop
  | selector text => IsSelector text.toList
  | argument l => l.Printable
  | _ => True

/-- The mode that the token is read in. -/
def mode : Token → LexMode
  | selector _ => .selector
  | relation _ => .relation
  | argument _ => .argument
  | connector _ => .connector
  | opening => .selector
  | closing => .connector

/-- What the lexer is in once a token was read. -/
def nextMode : Token → LexMode
  | selector _ => .relation
  | relation _ => .argument
  | argument _ => .connector
  | connector _ => .selector
  | opening => .selector
  | closing => .connector

/-- What a token can begin with. -/
inductive Starts : Token → Char → Prop where
  | selector (text : String) (c : Char) : Starts (.selector text) c
  | relation (r : Relation) (c : Char) : Starts (.relation r) c
  | argument (l : Literal) (c : Char) : Starts (.argument l) c
  | connector (k : Connector) : Starts (.connector k) k.symbol
  | opening : Starts .opening '('
  | closing : Starts .closing ')'

/-- What a token can be read from. -/
inductive Spelled : Token → List Char → Prop where
  | selector {s : String} (h : IsSelector s.toList) : Spelled (.selector s) s.toList
  | relation (r : Relation) : Spelled (.relation r) r.symbol.toList
  | bare {l : Literal} {text : List Char} (h : Lexer.Standing l text) : Spelled (.argument l) text
  | quoted {q : Char} (quote : q = '\'' ∨ q = '"') {taken text : List Char}
    (h : ∀ rest offset, ∃ stop, quoted q offset (taken ++ rest) = .closed text rest stop) :
    Spelled (.argument (.ofQuoted (String.ofList text))) (q :: taken)
  | connector (c : Connector) : Spelled (.connector c) [c.symbol]
  | opening : Spelled .opening ['(']
  | closing : Spelled .closing [')']

namespace Spelled

variable {t : Token} {text : List Char}

theorem ne_nil (h : t.Spelled text) : text ≠ [] := by
  cases h with
  | selector h =>
    obtain ⟨c, cs, hs, _⟩ := h.head
    rw [hs]
    exact List.cons_ne_nil c cs
  | relation r => cases r <;> exact List.cons_ne_nil _ _
  | bare h => exact (bare?_taken h.whole).2.1
  | _ => exact List.cons_ne_nil _ _

/-- A token begins with a character that its mode reads it from. -/
theorem starts {c : Char} {cs : List Char} (h : t.Spelled (c :: cs)) : t.Starts c := by
  generalize same : c :: cs = text at h
  cases h with
  | selector => exact .selector _ c
  | relation r => exact .relation r c
  | bare => exact .argument _ c
  | quoted => exact .argument _ c
  | connector k =>
    cases same
    exact .connector k
  | opening =>
    cases same
    exact .opening
  | closing =>
    cases same
    exact .closing

/-- Whatever is known of tokens that were read is known from the texts they are spelled with. -/
theorem printable (h : t.Spelled text) : t.Printable := by
  cases h with
  | selector h => exact h
  | bare h => exact .inr ⟨(bare?_taken h.whole).2.2.1, h.own.lexesBack⟩
  | quoted => exact .inl ⟨rfl, rfl⟩
  | _ => trivial

end Spelled

end Token

theorem Connector.symbol_of_ofSymbol? {k : Connector} {c : Char} (h : ofSymbol? c = some k) :
    k.symbol = c := by
  simpa using List.find?_some h

namespace Lexer

variable {l l' : Lexer} {c : Char} {cs text : List Char} {t : Token}

/-- The lexer reads the token from the text, which it goes past. -/
structure Consumes (l : Lexer) (t : Token) (text : List Char) (l' : Lexer) : Prop where
  inMode : t.mode = l.mode
  behind : l'.mode = t.nextMode
  spelled : t.Spelled text
  whole : text ++ l'.rest = l.rest
  stop : l.offset + byteLength text = l'.offset

/-- In front of an operand a parenthesis or a selector is read, and nothing else. -/
theorem readOperand_consumes (mode : l.mode = .selector) (here : l.rest = c :: cs)
    (h : l.readOperand c cs = (.ok t, l')) : ∃ text, l.Consumes t text l' := by
  unfold readOperand at h
  split at h
  · rename_i opening
    cases h
    subst opening
    exact ⟨['('], mode.symm, rfl, .opening, here.symm, rfl⟩
  · split at h <;> cases h
    rename_i text rest split
    have grammar : IsSelector (String.ofList text).toList := by
      simpa using isSelector_of_split split
    have spelled := Token.Spelled.selector grammar
    rw [String.toList_ofList] at spelled
    exact ⟨text, mode.symm, rfl, spelled, (Shape.split_append split).trans here.symm, rfl⟩

theorem readRelation_consumes (mode : l.mode = .relation) (h : l.readRelation = (.ok t, l')) :
    ∃ text, l.Consumes t text l' := by
  unfold readRelation at h
  split at h <;> cases h
  rename_i r found
  obtain ⟨more, symbol⟩ := relation?_eq_some found
  refine ⟨r.symbol.toList, mode.symm, rfl, .relation r, ?_, rfl⟩
  simp [past, symbol]

/-- An argument is read in quotes or bare, by the character it begins with. -/
theorem readArgument_consumes (mode : l.mode = .argument) (here : l.rest = c :: cs)
    (visible : isBlank c = false) (h : l.readArgument c cs = (.ok t, l')) :
    ∃ text, l.Consumes t text l' := by
  unfold readArgument at h
  split at h
  · rename_i quote
    split at h <;> cases h
    rename_i text rest stop closed
    obtain ⟨body, spells, rfl, rfl⟩ := spells_of_closed (ne_backslash_of_quote quote) closed
    have again : ∀ rest offset, ∃ stop,
        quoted c offset ((body ++ [c]) ++ rest) = .closed text rest stop := by
      intro rest offset
      rw [List.append_assoc]
      exact ⟨_, spells.quoted_closing (ne_backslash_of_quote quote) offset rest⟩
    refine ⟨c :: (body ++ [c]), mode.symm, rfl, .quoted quote again, ?_, ?_⟩
    · simp [here]
    · rw [byteLength_cons, utf8Size_of_quote quote, ← Nat.add_assoc]
  · rename_i plain
    simp only [not_or] at plain
    split at h <;> cases h
    rename_i b found
    obtain ⟨whole, some, _, _⟩ := bare?_taken found
    refine ⟨b.taken, mode.symm, rfl, .bare ⟨?_, bare?_cut found⟩, whole.trans here.symm, rfl⟩
    intro d hd
    obtain ⟨e, more, taken⟩ := List.exists_cons_of_ne_nil some
    rw [taken] at hd whole
    cases hd
    cases whole
    exact ⟨visible, plain⟩

theorem readConnector_consumes (mode : l.mode = .connector) (here : l.rest = c :: cs)
    (h : l.readConnector c cs = (.ok t, l')) : ∃ text, l.Consumes t text l' := by
  unfold readConnector at h
  split at h
  · rename_i closing
    cases h
    subst closing
    exact ⟨[')'], mode.symm, rfl, .closing, here.symm, rfl⟩
  · split at h <;> cases h
    rename_i k found
    have symbol := Connector.symbol_of_ofSymbol? found
    subst symbol
    exact ⟨[k.symbol], mode.symm, rfl, .connector k, here.symm, rfl⟩

/-- All that can come of reading a token. -/
theorem readToken_consumes (here : l.rest = c :: cs) (visible : isBlank c = false)
    (h : l.readToken c cs = (.ok t, l')) : ∃ text, l.Consumes t text l' := by
  unfold readToken at h
  split at h <;> rename_i mode
  · exact readOperand_consumes mode here h
  · exact readRelation_consumes mode h
  · exact readArgument_consumes mode here visible h
  · exact readConnector_consumes mode here h

/-- A token is read behind the blanks. -/
theorem next_consumes (h : l.next = (.ok (some t), l')) :
    ∃ text, l.skipBlanks.Consumes t text l' := by
  obtain ⟨c, cs, trimmed, read⟩ := next_eq_some.mp h
  exact readToken_consumes trimmed (not_isBlank_of_trimBlanks trimmed) read

/-- A token takes at least a character, and is one that the grammar knows. -/
theorem next_eq_ok (h : l.next = (.ok (some t), l')) :
    l'.rest.length < l.rest.length ∧ t.Printable := by
  obtain ⟨text, _, _, spelled, whole, _⟩ := next_consumes h
  have some := List.length_pos_iff.mpr spelled.ne_nil
  have split : text.length + l'.rest.length = l.skipBlanks.rest.length := by
    rw [← List.length_append, whole]
  have blanks : l.skipBlanks.rest.length ≤ l.rest.length :=
    (List.dropWhile_suffix isBlank).length_le
  exact ⟨by omega, spelled.printable⟩

/-- A bare literal that is read back as itself stands for itself wherever it ends. -/
theorem standing_of_lexesBack {l : Literal} (bare : l.quoted = false) (h : l.LexesBack) :
    Standing l l.chars := by
  obtain ⟨text, _, _, spelled, _, _⟩ := next_consumes (Prod.ext h.1 rfl)
  cases spelled with
  | bare standing => exact standing.own
  | quoted => cases bare

/-- A literal that can be printed is read back in front of whatever closes it. -/
theorem reads_argument {l : Literal} (h : l.Printable) {rest : List Char} (closes : Closes rest) :
    Reads .argument (l.chars ++ rest) (.argument l) .connector rest := by
  rcases h with ⟨quoted, plain⟩ | ⟨bare, back⟩
  · obtain ⟨text, suffix, q⟩ := l
    cases quoted
    cases plain
    exact reads_quoted text rest
  · exact (standing_of_lexesBack bare back).reads closes.ended

/-- The bound on steps does not matter once it is as great as the text is long. -/
theorem stepsWithin_congr {n m : Nat} {l : Lexer} (hn : l.rest.length ≤ n)
    (hm : l.rest.length ≤ m) : l.stepsWithin n = l.stepsWithin m := by
  have empty : ∀ {l : Lexer} (n : Nat), l.rest.length ≤ 0 → l.stepsWithin n = [] := by
    intro l n hl
    have hr : l.rest = [] := List.eq_nil_of_length_eq_zero (Nat.le_zero.mp hl)
    cases n with
    | zero => rfl
    | succ n => simp [stepsWithin, next, skipBlanks, hr, trimBlanks]
  induction n generalizing m l with
  | zero => rw [empty 0 hn, empty m hn]
  | succ n ih =>
    cases m with
    | zero => rw [empty 0 hm, empty (n + 1) hm]
    | succ m =>
      rw [stepsWithin, stepsWithin]
      split
      · rfl
      · rename_i t l' h
        have := (next_eq_ok h).1
        have same : l'.stepsWithin n = l'.stepsWithin m := ih (by omega) (by omega)
        rw [same]
      · rfl

theorem steps_of_next {l l' : Lexer} {t : Token} (h : l.next = (.ok (some t), l')) :
    l.steps = ⟨.ok t, l'⟩ :: l'.steps := by
  have shorter := (next_eq_ok h).1
  cases hn : l.rest.length with
  | zero => omega
  | succ n =>
    rw [steps, hn, stepsWithin, h]
    exact congrArg _ (stepsWithin_congr (by omega) (Nat.le_refl _))

theorem steps_of_end {l l' : Lexer} (h : l.next = (.ok none, l')) : l.steps = [] := by
  unfold steps
  cases l.rest.length with
  | zero => rfl
  | succ n => rw [stepsWithin, h]

theorem steps_of_error {l l' : Lexer} {e : LexError} (h : l.next = (.error e, l')) :
    l.steps = [⟨.error e, l'⟩] := by
  cases hn : l.rest.length with
  | zero =>
    have empty : l.rest = [] := List.eq_nil_of_length_eq_zero hn
    simp [next, skipBlanks, empty, trimBlanks] at h
  | succ n => rw [steps, hn, stepsWithin, h]

/-- Whatever the lexer reads can be printed. -/
theorem printable_of_mem_stepsWithin {n : Nat} {l : Lexer} {step : Step} {t : Token}
    (hs : step ∈ l.stepsWithin n) (ht : step.outcome = .ok t) : t.Printable := by
  induction n generalizing l with
  | zero => cases hs
  | succ n ih =>
    rw [stepsWithin] at hs
    split at hs
    · cases hs
    · rename_i t' l' h
      rcases List.mem_cons.mp hs with rfl | hs
      · cases ht
        exact (next_eq_ok h).2
      · exact ih hs
    · rw [List.mem_singleton] at hs
      subst hs
      cases ht

end Lexer

end EntityFilter

import EntityFilter.Proofs.Runs
import EntityFilter.Proofs.Unplaced

namespace EntityFilter

open Text Lexeme

/-- What may follow in the mode, so that the token in front of it ends there. -/
def LexMode.Admits : LexMode → List Char → Prop
  | selector, cs => ∀ c ∈ cs.head?, digit c = false
  | relation, cs => selectorRest cs = 0
  | argument, _ => True
  | connector, cs => Ended cs

namespace LexMode

theorem admits_nil (mode : LexMode) : mode.Admits [] := by
  cases mode with
  | selector => exact nofun
  | relation => rfl
  | argument => trivial
  | connector => exact Closes.finish.ended

/-- What may follow a token may follow it behind blanks. -/
theorem Admits.behind_blanks {mode : LexMode} {blanks cs : List Char}
    (blank : ∀ c ∈ blanks, isBlank c = true) (h : mode.Admits cs) : mode.Admits (blanks ++ cs) := by
  cases blanks with
  | nil => exact h
  | cons c blanks =>
    have hc := blank c List.mem_cons_self
    cases mode with
    | selector =>
      rintro _ ⟨⟩
      exact off_of_isBlank rfl hc
    | relation =>
      refine selectorRest_followed ?_ []
      rintro _ ⟨⟩
      refine ⟨off_of_isBlank rfl hc, ?_⟩
      rintro rfl
      cases hc
    | argument => trivial
    | connector => exact ended_of_isBlank hc _

end LexMode

namespace Token.Spelled

variable {t : Token} {text rest : List Char}

/-- No token goes on with one of the next mode. -/
theorem admits (h : t.Spelled text) (behind : t.nextMode.Admits rest) :
    t.mode.Admits (text ++ rest) := by
  cases h with
  | selector h =>
    obtain ⟨c, cs, hs, hc⟩ := h.head
    rw [hs]
    rintro _ ⟨⟩
    exact not_digit_of_isIdentifierStart hc
  | relation r => exact selectorRest_symbol r rest
  | bare => trivial
  | quoted => trivial
  | connector c => exact (Closes.connector c behind).ended
  | opening =>
    rintro _ ⟨⟩
    rfl
  | closing => exact (Closes.closing rest).ended

/-- The part of a text that a token was read from is read as that token wherever what follows does
not go on with it. -/
theorem reads (h : t.Spelled text) (behind : t.nextMode.Admits rest) :
    Lexer.Reads t.mode (text ++ rest) t t.nextMode rest := by
  cases h with
  | selector h => exact Lexer.reads_selector h behind
  | relation r => exact Lexer.reads_relation r rest
  | bare h => exact h.reads behind
  | @quoted q quote taken text h =>
    have visible : isBlank q = false := by rcases quote with rfl | rfl <;> rfl
    rw [List.cons_append]
    apply Lexer.reads_cons visible
    intro offset
    obtain ⟨stop, closed⟩ := h rest (offset + 1)
    refine ⟨stop, ?_⟩
    simp only [Token.mode, Lexer.readToken, Lexer.readArgument, if_pos quote, closed]
    rfl
  | connector c => exact Lexer.reads_connector c rest
  | opening => exact Lexer.reads_opening rest
  | closing => exact Lexer.reads_closing rest

end Token.Spelled

namespace Lexer

/-- The text between the blanks that are skipped and `l'`. -/
def slice (l l' : Lexer) : List Char :=
  l.skipBlanks.rest.take (l.skipBlanks.rest.length - l'.rest.length)

def slicesOf : Lexer → List Step → List (List Char)
  | _, [] => []
  | l, step :: steps => l.slice step.after :: slicesOf step.after steps

/-- The parts of the text that the tokens are read from. -/
def slices (l : Lexer) : List (List Char) := slicesOf l l.steps

variable {l l' : Lexer} {t : Token}

theorem slice_eq {text : List Char} (whole : text ++ l'.rest = l.skipBlanks.rest) :
    l.slice l' = text := by
  simp [slice, ← whole]

theorem slices_of_next (h : l.next = (.ok (some t), l')) :
    l.slices = l.slice l' :: l'.slices := by
  rw [slices, steps_of_next h]
  rfl

theorem slices_of_end (h : l.next = (.ok none, l')) : l.slices = [] := by
  rw [slices, steps_of_end h]
  rfl

/-- The slice of a token that was read is what it was read from. -/
theorem next_slice (h : l.next = (.ok (some t), l')) :
    l.skipBlanks.Consumes t (l.slice l') l' := by
  obtain ⟨text, consumes⟩ := next_consumes h
  rwa [slice_eq consumes.whole]

end Lexer

/-- The texts one after another, with blanks between and around them. -/
inductive Spaced : List (List Char) → List Char → Prop where
  | finish {blanks : List Char} (blank : ∀ c ∈ blanks, isBlank c = true) : Spaced [] blanks
  | text {blanks : List Char} (blank : ∀ c ∈ blanks, isBlank c = true) (text : List Char)
    {texts : List (List Char)} {cs : List Char} (more : Spaced texts cs) :
    Spaced (text :: texts) (blanks ++ (text ++ cs))

namespace Lexes

variable {l : Lexer} {ts : List Token} {cs : List Char}

theorem length_slices (h : Lexes l ts) : l.slices.length = ts.length := by
  induction h with
  | finish ended =>
    rw [Lexer.slices_of_end ended]
    rfl
  | token read _ ih => rw [Lexer.slices_of_next read, List.length_cons, List.length_cons, ih]

/-- A text whose tokens are read is its slices with blanks between them. -/
theorem spaced (h : Lexes l ts) : Spaced l.slices l.rest := by
  induction h with
  | @finish l _ ended =>
    obtain ⟨blank, -⟩ := Lexer.next_eq_none.mp ended
    rw [Lexer.slices_of_end ended]
    exact .finish (by simpa [trimBlanks] using blank)
  | @token l _ _ _ read _ ih =>
    have whole : l.rest.takeWhile isBlank ++ l.skipBlanks.rest = l.rest :=
      List.takeWhile_append_dropWhile
    rw [Lexer.slices_of_next read, ← whole, ← (Lexer.next_slice read).whole]
    exact .text (fun c hc => List.mem_takeWhile_imp hc) _ ih

/-- Nor does it matter how many blanks there are. What the mode admits goes along in the induction:
it is what lets the token in front be read. -/
theorem respaced (h : Lexes l ts) (spaced : Spaced l.slices cs) :
    l.mode.Admits cs ∧ ∀ offset, Lexes ⟨cs, offset, l.mode⟩ ts := by
  induction h generalizing cs with
  | @finish l _ ended =>
    rw [Lexer.slices_of_end ended] at spaced
    cases spaced with
    | finish blank =>
      refine ⟨by simpa using l.mode.admits_nil.behind_blanks blank, fun offset => ?_⟩
      exact .finish (Lexer.next_eq_none.mpr ⟨by simpa [trimBlanks] using blank, rfl⟩)
  | @token l l' t ts read _ ih =>
    obtain ⟨inMode, nextMode, spelled, _, _⟩ := Lexer.next_slice read
    have mode : t.mode = l.mode := inMode
    rw [Lexer.slices_of_next read] at spaced
    cases spaced with
    | @text blanks blank text _ cs more =>
      obtain ⟨behind, lexes⟩ := ih more
      rw [nextMode] at behind lexes
      rw [← mode]
      refine ⟨(spelled.admits behind).behind_blanks blank, fun offset => ?_⟩
      obtain ⟨stop, again⟩ := spelled.reads behind (offset + byteLength blanks)
      exact .token ((Lexer.next_blanks blank _ offset _).trans again) (lexes stop)

end Lexes

theorem spaced_flatten (texts : List (List Char)) : Spaced texts texts.flatten := by
  induction texts with
  | nil => exact .finish nofun
  | cons text texts ih => exact @Spaced.text [] nofun text texts _ ih

/-- What a text lexes to can be told from its calls. -/
theorem Lexes.of_outcomes {l : Lexer} {ts : List Token}
    (h : l.outcomes (ts.length + 1) = ts.map (fun t => .ok (some t)) ++ [.ok none]) :
    Lexes l ts := by
  induction ts generalizing l with
  | nil => exact .finish (Prod.ext (List.cons.inj h).1 rfl)
  | cons t ts ih =>
    obtain ⟨read, more⟩ := List.cons.inj h
    exact .token (Prod.ext read rfl) (ih more)

/-- White space between tokens is ignored: whatever blanks stand between and around the slices of
the tokens of a query, none of them too, the tokens are the same and so is the tree, or the error up
to its position. -/
theorem Lexer.ofQuery_respaced {query : String} {ts : List Token}
    (h : Lexes (Lexer.ofQuery query) ts) :
    (Lexer.ofQuery query).slices.length = ts.length ∧
      Spaced (Lexer.ofQuery query).slices query.toList ∧
      ∀ other : String, Spaced (Lexer.ofQuery query).slices other.toList →
        Lexes (Lexer.ofQuery other) ts ∧
        (Expression.ofQuery other).mapError ParseError.unplaced =
          (Expression.ofQuery query).mapError ParseError.unplaced := by
  refine ⟨h.length_slices, h.spaced, fun other spaced => ?_⟩
  have lexes : Lexes (Lexer.ofQuery other) ts := (h.respaced spaced).2 0
  refine ⟨lexes, ?_⟩
  rw [Expression.ofQuery_unplaced lexes, Expression.ofQuery_unplaced h]

namespace Clinic

def nandTokens : List Token :=
  [.selector "pets.age", .relation .eq, .argument (.ofBare "2"), .connector .nand,
    .selector "town", .relation .eq, .argument (.ofQuoted "St. John")]

end Clinic

/-- Where the blanks around a point are left out, it stays a connector and goes on no number. -/
theorem Lexer.ofQuery_respaced_of_clinic :
    Lexes (Lexer.ofQuery "pets.age == 2 . town == 'St. John' ") Clinic.nandTokens ∧
      Lexes (Lexer.ofQuery "pets.age==2.town=='St. John'") Clinic.nandTokens ∧
      (Expression.ofQuery "pets.age==2.town=='St. John'").mapError ParseError.unplaced =
        (Expression.ofQuery "pets.age == 2 . town == 'St. John' ").mapError ParseError.unplaced := by
  have lexes : Lexes (Lexer.ofQuery "pets.age == 2 . town == 'St. John' ") Clinic.nandTokens :=
    .of_outcomes (by cbv)
  have slices : (Lexer.ofQuery "pets.age == 2 . town == 'St. John' ").slices.flatten =
      "pets.age==2.town=='St. John'".toList := by cbv
  have spaced := spaced_flatten (Lexer.ofQuery "pets.age == 2 . town == 'St. John' ").slices
  rw [slices] at spaced
  exact ⟨lexes, (Lexer.ofQuery_respaced lexes).2.2 _ spaced⟩

end EntityFilter

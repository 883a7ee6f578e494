import EntityFilter.Text.ByteLength
import EntityFilter.Text.Blank
import EntityFilter.Query.Lexeme

namespace EntityFilter

inductive Token where
  | selector (text : String)
  | relation (r : Relation)
  | argument (l : Literal)
  | connector (c : Connector)
  | opening
  | closing
deriving DecidableEq, Repr

/-- What can be missing. -/
inductive Expected where
  | operand
  | relation
  | argument
  | connector
  | closing
  | finish
deriving DecidableEq, Repr

def Expected.text : Expected → String
  | operand => "a selector or '('"
  | relation => "a comparison operator"
  | argument => "an argument"
  | connector => "a connector (, ; . :) or ')'"
  | closing => "')'"
  | finish => "end of input"

/-- Positions are offsets in bytes of UTF-8. -/
inductive LexError where
  | unexpectedCharacter (c : Char) (position : Nat) (expected : Expected)
  | expectedRelation (position : Nat)
  | invalidArgument (position : Nat)
  | unterminatedString (position : Nat)
  | invalidEscape (c : Char) (position : Nat)
deriving DecidableEq, Repr

def LexError.message : LexError → String
  | unexpectedCharacter c p e => s!"unexpected character '{c}' at position {p}, expected {e.text}"
  | expectedRelation p =>
    s!"expected a comparison operator (==, !=, =gt=, =lt=, =ge=, =le=) at position {p}"
  | invalidArgument p => s!"unrecognized argument at position {p}"
  | unterminatedString p => s!"unterminated string starting at position {p}"
  | invalidEscape c p => s!"invalid escape sequence '\\{c}' at position {p}"

/-- What is expected next. What a character means hangs on where it stands: `.` joins the
identifiers of a selector, is part of a number, or is a connector. -/
inductive LexMode where
  | selector
  | relation
  | argument
  | connector
deriving DecidableEq, Repr

structure Lexer where
  rest : List Char
  /-- Bytes in front of `rest`. -/
  offset : Nat
  mode : LexMode
deriving DecidableEq, Repr

namespace Lexer

def ofQuery (query : String) : Lexer := ⟨query.toList, 0, .selector⟩

def skipBlanks (l : Lexer) : Lexer :=
  { l with
    rest := Text.trimBlanks l.rest
    offset := l.offset + Text.byteLength (l.rest.takeWhile Text.isBlank) }

/-- Past `taken`, with `rest` after it. -/
def past (l : Lexer) (taken rest : List Char) (mode : LexMode) : Lexer :=
  ⟨rest, l.offset + Text.byteLength taken, mode⟩

def readOperand (l : Lexer) (c : Char) (cs : List Char) : Except LexError Token × Lexer :=
  if c = '(' then (.ok .opening, l.past [c] cs .selector)
  else
    match Lexeme.selector.split (c :: cs) with
    | some (text, rest) => (.ok (.selector (String.ofList text)), l.past text rest .relation)
    | none => (.error (.unexpectedCharacter c l.offset .operand), l)

def readRelation (l : Lexer) : Except LexError Token × Lexer :=
  match Lexeme.relation? l.rest with
  | some r =>
    let taken := r.symbol.toList
    (.ok (.relation r), l.past taken (l.rest.drop taken.length) .argument)
  | none => (.error (.expectedRelation l.offset), l)

def readArgument (l : Lexer) (c : Char) (cs : List Char) : Except LexError Token × Lexer :=
  if c = '\'' ∨ c = '"' then
    match Lexeme.quoted c (l.offset + 1) cs with
    | .closed text rest stop =>
      (.ok (.argument (.ofQuoted (String.ofList text))), ⟨rest, stop, .connector⟩)
    | .badEscape d rest stop => (.error (.invalidEscape d stop), ⟨rest, stop, .argument⟩)
    | .unterminated stop => (.error (.unterminatedString l.offset), ⟨[], stop, .argument⟩)
  else
    match Lexeme.bare? (c :: cs) with
    | some b => (.ok (.argument b.literal), l.past b.taken b.rest .connector)
    | none => (.error (.invalidArgument l.offset), l)

def readConnector (l : Lexer) (c : Char) (cs : List Char) : Except LexError Token × Lexer :=
  if c = ')' then (.ok .closing, l.past [c] cs .connector)
  else
    match Connector.ofSymbol? c with
    | some x => (.ok (.connector x), l.past [c] cs .selector)
    | none => (.error (.unexpectedCharacter c l.offset .connector), l)

/-- The token at the first character that is not blank. -/
def readToken (l : Lexer) (c : Char) (cs : List Char) : Except LexError Token × Lexer :=
  match l.mode with
  | .selector => l.readOperand c cs
  | .relation => l.readRelation
  | .argument => l.readArgument c cs
  | .connector => l.readConnector c cs

/-- The next token, or none at the end of the input. -/
def next (l : Lexer) : Except LexError (Option Token) × Lexer :=
  let l := l.skipBlanks
  match l.rest with
  | [] => (.ok none, l)
  | c :: cs =>
    let (token, l') := l.readToken c cs
    (token.map some, l')

/-- Where no blank comes first nothing is skipped. -/
theorem next_of_not_blank {c : Char} (hc : Text.isBlank c = false) (cs : List Char) (offset : Nat)
    (mode : LexMode) :
    next ⟨c :: cs, offset, mode⟩ =
      ((readToken ⟨c :: cs, offset, mode⟩ c cs).1.map some,
        (readToken ⟨c :: cs, offset, mode⟩ c cs).2) := by
  have stays : skipBlanks ⟨c :: cs, offset, mode⟩ = ⟨c :: cs, offset, mode⟩ := by
    simp [skipBlanks, Text.trimBlanks, hc, Text.byteLength]
  rw [next, stays]

/-- A token that was read, or why none was, and the lexer behind it. -/
structure Step where
  outcome : Except LexError Token
  after : Lexer

/-- Steps up to the end of the input or the first error, at most `n`. -/
def stepsWithin : Nat → Lexer → List Step
  | 0, _ => []
  | n + 1, l =>
    match l.next with
    | (.ok none, _) => []
    | (.ok (some t), l') => ⟨.ok t, l'⟩ :: stepsWithin n l'
    | (.error e, l') => [⟨.error e, l'⟩]

/-- A token takes a character at least, so there are no more than characters. -/
def steps (l : Lexer) : List Step := l.stepsWithin l.rest.length

end Lexer

end EntityFilter

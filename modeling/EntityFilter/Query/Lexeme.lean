import EntityFilter.Text.DecimalDigit
import EntityFilter.Text.Shape
import EntityFilter.Query.Symbol
import EntityFilter.Query.Literal

namespace EntityFilter.Lexeme

open Text Shape

def isIdentifierStart (c : Char) : Bool := c.isAlpha || c == '_'

def isIdentifierPart (c : Char) : Bool := c.isAlphanum || c == '_'

/-- How many characters go on a selector that has begun. A point belongs to it only in front of
another identifier. -/
def selectorRest : List Char → Nat
  | [] => 0
  | c :: cs =>
    if isIdentifierPart c then 1 + selectorRest cs
    else if c = '.' then
      match cs with
      | [] => 0
      | d :: ds => if isIdentifierStart d then 2 + selectorRest ds else 0
    else 0

/-- Identifiers joined by points. -/
def selector : Shape
  | [] => none
  | c :: cs => if isIdentifierStart c then some (1 + selectorRest cs) else none

/-- The relation whose symbol starts the text. No symbol starts another one. -/
def relation? (cs : List Char) : Option Relation :=
  Relation.all.find? fun r => r.symbol.toList.isPrefixOf cs

def digit : Char → Bool := isDecimalDigit

def sign : Shape := one fun c => c == '+' || c == '-'

def date : Shape := times 4 digit ++ char '-' ++ times 2 digit ++ char '-' ++ times 2 digit

def seconds : Shape := char ':' ++ times 2 digit ++ opt (char '.' ++ many1 digit)

def zone : Shape := (char 'Z').or (sign ++ times 2 digit ++ opt (char ':') ++ times 2 digit)

def dateTime : Shape :=
  date ++ char 'T' ++ times 2 digit ++ char ':' ++ times 2 digit ++ opt seconds ++ opt zone

/-- A point belongs to a number only in front of a digit, so `2.name==x` is a number, a connector
and a selector. -/
def number : Shape :=
  opt sign ++ many1 digit ++ opt (char '.' ++ many1 digit) ++
    opt (one (fun c => c == 'e' || c == 'E') ++ opt sign ++ many1 digit)

def word : Shape :=
  one (fun c => c.isAlpha || c == '_' || c == '*') ++
    many fun c => c.isAlphanum || c == '_' || c == '*' || c == '-'

/-- A literal, the characters it was written with, and what follows them. -/
structure Bare where
  literal : Literal
  taken : List Char
  rest : List Char

def Bare.ofSplit (split : List Char × List Char) : Bare :=
  ⟨.ofBare (String.ofList split.1), split.1, split.2⟩

/-- A suffix joins the number in front of it. -/
def Bare.withSuffix (b : Bare) : Bare :=
  match b.rest with
  | [] => b
  | c :: cs =>
    match Suffix.ofChar? c with
    | none => b
    | some s => ⟨{ b.literal with suffix := some s }, b.taken ++ [c], cs⟩

/-- A date or date-time, else a number, else a word. -/
def bare? (cs : List Char) : Option Bare :=
  (((dateTime.or date).split cs).map Bare.ofSplit).or
    (((number.split cs).map fun s => (Bare.ofSplit s).withSuffix).or
      ((word.split cs).map Bare.ofSplit))

def isEscapable (c : Char) : Bool := c == '\'' || c == '"' || c == '\\'

/-- What reading up to the closing quote comes to, and the offset it stops at. -/
inductive Quoted where
  | closed (text rest : List Char) (stop : Nat)
  | badEscape (c : Char) (rest : List Char) (stop : Nat)
  | unterminated (stop : Nat)
deriving DecidableEq, Repr

def Quoted.cons (c : Char) : Quoted → Quoted
  | closed text rest stop => closed (c :: text) rest stop
  | badEscape d rest stop => badEscape d rest stop
  | unterminated stop => unterminated stop

/-- Reads behind an opening quote `q` that ends at `offset`. -/
def quoted (q : Char) (offset : Nat) : List Char → Quoted
  | [] => .unterminated offset
  | c :: cs =>
    let after := offset + c.utf8Size
    if c = q then .closed [] cs after
    else if c = '\\' then
      match cs with
      | [] => .unterminated after
      | d :: ds =>
        if isEscapable d then (quoted q (after + d.utf8Size) ds).cons d
        else .badEscape d (d :: ds) after
    else (quoted q after cs).cons c

end EntityFilter.Lexeme

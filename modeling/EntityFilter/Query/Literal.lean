namespace EntityFilter

inductive Suffix where
  | long
  | double
deriving DecidableEq, Repr

namespace Suffix

def ofChar? : Char → Option Suffix
  | 'L' | 'l' => some long
  | 'D' | 'd' => some double
  | _ => none

def char : Suffix → Char
  | long => 'L'
  | double => 'D'

theorem ofChar?_char (s : Suffix) : ofChar? s.char = some s := by cases s <;> rfl

end Suffix

/-- An argument as written. It has no type of its own: the attribute it is compared with decides how
it is read, unless a suffix says so. -/
structure Literal where
  /-- Without quotes, escapes and suffix. -/
  text : String
  suffix : Option Suffix
  quoted : Bool
deriving DecidableEq, Repr

namespace Literal

def ofQuoted (text : String) : Literal := ⟨text, none, true⟩

def ofBare (text : String) : Literal := ⟨text, none, false⟩

def hasWildcard (l : Literal) : Bool := l.text.toList.contains '*'

def suffixText (l : Literal) : List Char := (l.suffix.map Suffix.char).toList

/-- The text as typed, suffix included. -/
def verbatim (l : Literal) : String := String.ofList (l.text.toList ++ l.suffixText)

/-- Inside quotes, `\` and the quote stand behind a `\`. -/
def escape (cs : List Char) : List Char :=
  cs.flatMap fun c => if c = '\\' ∨ c = '\'' then ['\\', c] else [c]

def chars (l : Literal) : List Char :=
  (if l.quoted then '\'' :: escape l.text.toList ++ ['\''] else l.text.toList) ++ l.suffixText

def display (l : Literal) : String := String.ofList l.chars

end Literal

end EntityFilter

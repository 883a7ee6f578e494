import EntityFilter.Json.Value

namespace EntityFilter.Json

/-- The white space of a written value. Texts on one line and indented ones differ in nothing else.
-/
structure Spacing where
  /-- What stands before an item or a closing bracket at a depth. -/
  line : Nat → List Char
  colon : List Char

def Spacing.compact : Spacing := ⟨fun _ => [], []⟩

def Spacing.pretty : Spacing := ⟨fun depth => '\n' :: List.replicate (2 * depth) ' ', [' ']⟩

def hexDigit (n : Nat) : Char := Char.ofNat (if n < 10 then '0'.toNat + n else 'a'.toNat + n - 10)

/-- Quotes, backslashes and control characters are escaped, all else stands for itself. -/
def escapeChar (c : Char) : List Char :=
  match c with
  | '"' => ['\\', '"']
  | '\\' => ['\\', '\\']
  | '\n' => ['\\', 'n']
  | '\r' => ['\\', 'r']
  | '\t' => ['\\', 't']
  | '\x08' => ['\\', 'b']
  | '\x0c' => ['\\', 'f']
  | c =>
    if c.toNat < 0x20 then
      ['\\', 'u', '0', '0', hexDigit (c.toNat / 16), hexDigit (c.toNat % 16)]
    else [c]

def quote (s : String) : List Char := '"' :: s.toList.flatMap escapeChar ++ ['"']

mutual

def write (s : Spacing) (depth : Nat) : Json → List Char
  | .null => ['n', 'u', 'l', 'l']
  | .bool true => ['t', 'r', 'u', 'e']
  | .bool false => ['f', 'a', 'l', 's', 'e']
  | .number n => n.text.toList
  | .string t => quote t
  | .array [] => ['[', ']']
  | .array (x :: xs) =>
    '[' :: s.line (depth + 1) ++ write s (depth + 1) x ++ writeItems s (depth + 1) xs ++
      s.line depth ++ [']']
  | .object [] => ['\x7b', '\x7d']
  | .object ((name, x) :: fields) =>
    '\x7b' :: s.line (depth + 1) ++ quote name ++ ':' :: s.colon ++ write s (depth + 1) x ++
      writeFields s (depth + 1) fields ++ s.line depth ++ ['\x7d']

def writeItems (s : Spacing) (depth : Nat) : List Json → List Char
  | [] => []
  | x :: xs => ',' :: s.line depth ++ write s depth x ++ writeItems s depth xs

def writeFields (s : Spacing) (depth : Nat) : List (String × Json) → List Char
  | [] => []
  | (name, x) :: fields =>
    ',' :: s.line depth ++ quote name ++ ':' :: s.colon ++ write s depth x ++
      writeFields s depth fields

end

def compact (j : Json) : String := String.ofList (j.write .compact 0)

def pretty (j : Json) : String := String.ofList (j.write .pretty 0)

end EntityFilter.Json

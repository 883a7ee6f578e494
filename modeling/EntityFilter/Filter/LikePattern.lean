import EntityFilter.Filter.Value

namespace EntityFilter

/-- A pattern for text, as in SQL: `%` stands for any run of characters, `_` for exactly one, and
`\` makes the character behind it stand for itself. -/
structure LikePattern where
  text : String
deriving DecidableEq, Repr

inductive LikeItem where
  | run
  | any
  | char (c : Char)
deriving DecidableEq, Repr

namespace LikeItem

/-- A `\` at the end stands for nothing. -/
def parse : List Char → List LikeItem
  | [] => []
  | c :: cs =>
    if c = '%' then run :: parse cs
    else if c = '_' then any :: parse cs
    else if c = '\\' then
      match cs with
      | [] => []
      | d :: ds => char d :: parse ds
    else char c :: parse cs

/-- How an item is written. -/
def chars : LikeItem → List Char
  | run => ['%']
  | any => ['_']
  | char c => if c = '%' ∨ c = '_' ∨ c = '\\' then ['\\', c] else [c]

def pattern (is : List LikeItem) : List Char := is.flatMap chars

theorem parse_chars_append (i : LikeItem) (cs : List Char) : parse (i.chars ++ cs) = i :: parse cs := by
  cases i with
  | run => rw [chars, List.singleton_append, parse.eq_def]; simp
  | any => rw [chars, List.singleton_append, parse.eq_def]; simp
  | char c =>
    rw [chars]
    split
    · rw [List.cons_append, List.singleton_append, parse.eq_def]; simp
    · rename_i h
      simp only [not_or] at h
      rw [List.singleton_append, parse.eq_def]; simp [h]

theorem parse_pattern (is : List LikeItem) : parse (pattern is) = is := by
  induction is with
  | nil => rfl
  | cons i is ih =>
    rw [pattern, List.flatMap_cons, parse_chars_append]
    exact congrArg (i :: ·) ih

/-- Matching works back from the end of the items. A row says for every suffix of the text, longest
first, whether the items so far match the whole of it; this is the row without items. -/
def endRow : List Char → List Bool
  | [] => [true]
  | _ :: cs => false :: endRow cs

/-- The row with one item more in front, from the row without it. -/
def step (i : LikeItem) : List Char → List Bool → List Bool
  | [], row =>
    match i with
    | run => row
    | _ => [false]
  | c :: cs, row =>
    let rest := row.drop 1
    let row' := step i cs rest
    let here :=
      match i with
      | run => row.headD false || row'.headD false
      | any => rest.headD false
      | char d => c == d && rest.headD false
    here :: row'

def matchesAll (is : List LikeItem) (cs : List Char) : Bool :=
  (is.foldr (fun i row => step i cs row) (endRow cs)).headD false

def isRegexMeta (c : Char) : Bool := "\\.+*?()|[]\x7b\x7d^$#&-~".toList.contains c

/-- An item as a regular expression. -/
def regex : LikeItem → List Char
  | run => "(?s:.*)".toList
  | any => "(?s:.)".toList
  | char c => if isRegexMeta c then ['\\', c] else [c]

end LikeItem

namespace LikePattern

def items (p : LikePattern) : List LikeItem := LikeItem.parse p.text.toList

def matchesText (p : LikePattern) (s : String) : Bool := LikeItem.matchesAll p.items s.toList

/-- A regular expression, anchored at both ends, that accepts the same texts. -/
def regexSource (p : LikePattern) : String :=
  String.ofList ('^' :: p.items.flatMap LikeItem.regex ++ ['$'])

def display (p : LikePattern) : String := Value.quoted p.text

end LikePattern

/-- A library that compiles regular expressions: for each source that it does not compile, why. -/
structure RegexEngine where
  refusal? : String → Option String

namespace RegexEngine

def sizeLimit : Nat := 10485760

/-- The bytes that a character of a source adds to the automaton it is compiled to, which has 32
bytes for a state and 8 for a transition. A character that stands for itself takes a state for each
of its bytes. The sequences of bytes of any character, `(?s:.)`, take nine states and sixteen
transitions; two of the states are put down to the `s` and the `:`. -/
def weight : Char → Nat
  | '(' | '?' | ')' => 0
  | '.' => 352
  | '*' => 40
  | c => 32 * c.utf8Size

/-- One character further, where a `\\` in front takes away what is special about it. -/
def charge : Bool × Nat → Char → Bool × Nat
  | (true, n), c => (false, n + 32 * c.utf8Size)
  | (false, n), c => if c = '\\' then (true, n) else (false, n + weight c)

def estimate (source : String) : Nat := (source.toList.foldl charge (false, 0)).2

/-- An engine with a limit on what it compiles to. Where just the limit is passed is an estimate. -/
def standard : RegexEngine where
  refusal? source :=
    if estimate source ≤ sizeLimit then none
    else some s!"Compiled regex exceeds size limit of {sizeLimit} bytes."

end RegexEngine

end EntityFilter

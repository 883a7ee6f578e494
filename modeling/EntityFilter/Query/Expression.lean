import EntityFilter.Query.Symbol
import EntityFilter.Query.Literal

namespace EntityFilter

/-- Filter expressions as trees. A tree built by hand may be deeper than any that a query gives, so
what is asked of whole trees is answered by walks over a list of pending trees; `size`, `height` and
`leaves` are the same questions by recursion on the tree. -/
inductive Expression where
  | comparison (selector : String) (relation : Relation) (argument : Literal)
  | joined (connector : Connector) (left right : Expression)
deriving DecidableEq, Repr

namespace Expression

def size : Expression → Nat
  | comparison .. => 1
  | joined _ l r => 1 + l.size + r.size

def height : Expression → Nat
  | comparison .. => 1
  | joined _ l r => 1 + max l.height r.height

/-- The selectors of the comparisons, left to right. -/
def leaves : Expression → List String
  | comparison s _ _ => [s]
  | joined _ l r => l.leaves ++ r.leaves

/-- The nodes of a list of trees. -/
def totalSize (es : List Expression) : Nat := es.foldr (fun e n => e.size + n) 0

def selectorsOf : List Expression → List String
  | [] => []
  | comparison s _ _ :: es => s :: selectorsOf es
  | joined _ l r :: es => selectorsOf (l :: r :: es)
termination_by es => totalSize es
decreasing_by all_goals simp only [totalSize, List.foldr_cons, size]; omega

def selectors (e : Expression) : List String := selectorsOf [e]

/-- Adds the nodes of the pending trees to those counted. -/
def countFrom (n : Nat) : List Expression → Nat
  | [] => n
  | comparison .. :: es => countFrom (n + 1) es
  | joined _ l r :: es => countFrom (n + 1) (r :: l :: es)
termination_by es => totalSize es
decreasing_by all_goals simp only [totalSize, List.foldr_cons, size]; omega

def nodeCount (e : Expression) : Nat := countFrom 0 [e]

/-- The deepest level met, with the level of each pending tree's root beside it. -/
def deepestFrom (n : Nat) : List (Expression × Nat) → Nat
  | [] => n
  | (comparison .., d) :: es => deepestFrom (max n d) es
  | (joined _ l r, d) :: es => deepestFrom (max n d) ((r, d + 1) :: (l, d + 1) :: es)
termination_by es => totalSize (es.map Prod.fst)
decreasing_by all_goals simp only [totalSize, List.map_cons, List.foldr_cons, size]; omega

/-- The number of levels. -/
def depth (e : Expression) : Nat := deepestFrom 0 [(e, 1)]

/-- An operand that is a join itself stands in parentheses. -/
def grouped (e : Expression) (cs : List Char) : List Char :=
  match e with
  | comparison .. => cs
  | joined .. => '(' :: cs ++ [')']

def chars : Expression → List Char
  | comparison s r a => s.toList ++ r.symbol.toList ++ a.chars
  | joined c l r => grouped l l.chars ++ c.symbol :: grouped r r.chars

def display (e : Expression) : String := String.ofList e.chars

end Expression

end EntityFilter

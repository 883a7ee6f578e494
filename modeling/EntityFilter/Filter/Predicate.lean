import EntityFilter.Query.Symbol
import EntityFilter.Model.Path
import EntityFilter.Filter.LikePattern

namespace EntityFilter

/-- Predicates over the attributes of an entity. A path through a collection asks whether some
element reached through it satisfies the leaf. -/
inductive Predicate where
  | and (left right : Predicate)
  | or (left right : Predicate)
  | not (inner : Predicate)
  | compare (path : Path) (relation : Relation) (value : Value)
  | like (path : Path) (pattern : LikePattern) (negated : Bool)
  /-- The collection has an element equal to the value. -/
  | contains (path : Path) (value : Value) (negated : Bool)
  /-- The number of elements of the collection compared with the value. -/
  | size (path : Path) (relation : Relation) (value : Value)
deriving DecidableEq, Repr

namespace Predicate

/-- `nand` and `nor` negate each operand, not what they join to. -/
def compose : Connector → Predicate → Predicate → Predicate
  | .and, p, q => and p q
  | .or, p, q => or p q
  | .nand, p, q => and (not p) (not q)
  | .nor, p, q => or (not p) (not q)

def leafCount : Predicate → Nat
  | and p q | or p q => p.leafCount + q.leafCount
  | not p => p.leafCount
  | compare .. | like .. | contains .. | size .. => 1

/-- The paths of the leaves, left to right. -/
def paths : Predicate → List Path
  | and p q | or p q => p.paths ++ q.paths
  | not p => p.paths
  | compare path _ _ | like path _ _ | contains path _ _ | size path _ _ => [path]

def display : Predicate → String
  | and p q => s!"and({p.display}, {q.display})"
  | or p q => s!"or({p.display}, {q.display})"
  | not p => s!"not({p.display})"
  | compare path r v => s!"{r.name}({path.selector}, {v.display})"
  | like path pattern negated =>
    (if negated then "not_like" else "like") ++ s!"({path.selector}, {pattern.display})"
  | contains path v negated =>
    (if negated then "not_contains" else "contains") ++ s!"({path.selector}, {v.display})"
  | size path r v => s!"{r.name}(size({path.selector}), {v.display})"

/-- Equality up to what values stand for. -/
def same : Predicate → Predicate → Bool
  | and p q, and p' q' => p.same p' && q.same q'
  | or p q, or p' q' => p.same p' && q.same q'
  | not p, not p' => p.same p'
  | compare a r v, compare a' r' v' => a == a' && r == r' && v.same v'
  | like a t n, like a' t' n' => a == a' && t == t' && n == n'
  | contains a v n, contains a' v' n' => a == a' && v.same v' && n == n'
  | size a r v, size a' r' v' => a == a' && r == r' && v.same v'
  | _, _ => false

end Predicate

end EntityFilter

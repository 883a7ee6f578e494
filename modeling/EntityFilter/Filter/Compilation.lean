import EntityFilter.Query.Parser
import EntityFilter.Filter.Coercion
import EntityFilter.Filter.Predicate

namespace EntityFilter

/-- Why an expression cannot be compiled. -/
inductive FilterError where
  | resolution (e : ResolutionError)
  | coercion (selector : String) (e : CoercionError)
  | unsupported (selector : String) (relation : Relation) (target : String)
  | tooDeep (depth : Nat)
deriving DecidableEq, Repr

def FilterError.message : FilterError → String
  | resolution e => e.message
  | coercion s e => s!"selector '{s}': {e.message}"
  | unsupported s r t => s!"selector '{s}': operator {r.symbol} is not supported on {t}"
  | tooDeep d => s!"filter is {d} levels deep, at most {maxDepth} are supported"

/-- What a filter fails for, broadly. -/
inductive ErrorKind where
  | authorization
  | resolution
  | coercion
  | unsupported
  | limit
deriving DecidableEq, Repr

def FilterError.kind : FilterError → ErrorKind
  | resolution (.notAllowed _) => .authorization
  | resolution _ => .resolution
  | coercion .. => .coercion
  | unsupported .. => .unsupported
  | tooDeep _ => .limit

/-- Either the query or its tree is wrong. -/
inductive CompileError where
  | parse (e : ParseError)
  | filter (e : FilterError)
deriving DecidableEq, Repr

def CompileError.message : CompileError → String
  | parse e => s!"parse error: {e.message}"
  | filter e => s!"invalid filter: {e.message}"

/-- What selectors are resolved in. -/
structure Scope where
  graph : AttributeGraph
  root : String
  policy : Policy

namespace Predicate

def refuse (selector : String) (r : Relation) (path : Path) : Except FilterError Predicate :=
  .error (.unsupported selector r path.target.typeText)

/-- The pattern that a comparison asks for: only text is matched, and only for equality. -/
def patternFor? (policy : Policy) (path : Path) (r : Relation) (l : Literal) : Option LikePattern :=
  if path.target.type == .string && !r.isOrdering then
    LikePattern.ofLiteral? l policy.alwaysWildcard
  else none

/-- A leaf with a value: `make` puts it in. -/
def withValue (selector : String) (value : Value.Coerced) (make : Value → Predicate) :
    Except FilterError Predicate :=
  match value with
  | .ok v => .ok (make v)
  | .error e => .error (.coercion selector e)

def ofSingle (policy : Policy) (selector : String) (path : Path) (r : Relation) (l : Literal) :
    Except FilterError Predicate :=
  let type := path.target.type
  if type.isEntity || (r.isOrdering && !type.isOrdered) then refuse selector r path
  else
    match patternFor? policy path r l with
    | some pattern => .ok (like path pattern (r == .ne))
    | none => withValue selector (Value.ofLiteral l type) (compare path r)

/-- Ordering counts the elements of a collection, equality looks for one among them. -/
def ofCollection (policy : Policy) (selector : String) (path : Path) (r : Relation) (l : Literal) :
    Except FilterError Predicate :=
  if r.isOrdering then withValue selector (Value.ofCount l) (size path r)
  else if path.target.type.isEntity then refuse selector r path
  else
    match patternFor? policy path r l with
    | some pattern => .ok (like path pattern (r == .ne))
    | none =>
      withValue selector (Value.ofLiteral l path.target.type) (contains path · (r == .ne))

def ofComparison (scope : Scope) (selector : String) (r : Relation) (l : Literal) :
    Except FilterError Predicate :=
  match Path.resolve scope.graph scope.root scope.policy selector with
  | .error e => .error (.resolution e)
  | .ok path =>
    if path.isCollectionValued then ofCollection scope.policy selector path r l
    else ofSingle scope.policy selector path r l

/-- The first comparison that cannot be compiled ends it, and nothing of a predicate is returned
then. -/
def ofTree (scope : Scope) : Expression → Except FilterError Predicate
  | .comparison selector r l => ofComparison scope selector r l
  | .joined c a b => do
    let p ← ofTree scope a
    let q ← ofTree scope b
    .ok (compose c p q)

/-- The depth is looked at before anything else. -/
def ofExpression (scope : Scope) (e : Expression) : Except FilterError Predicate :=
  if maxDepth < e.depth then .error (.tooDeep e.depth) else ofTree scope e

def ofQuery (scope : Scope) (query : String) : Except CompileError Predicate :=
  match Expression.ofQuery query with
  | .error e => .error (.parse e)
  | .ok e => (ofExpression scope e).mapError .filter

end Predicate

end EntityFilter

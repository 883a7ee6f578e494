import EntityFilter.Filter.Predicate
import EntityFilter.Filter.Record
import EntityFilter.Filter.Truth

namespace EntityFilter

/-- The items of a pattern, unless the engine refuses its regular expression. -/
def LikePattern.compile (engine : RegexEngine) (p : LikePattern) :
    Except ExecutionError (List LikeItem) :=
  match engine.refusal? p.regexSource with
  | some reason => .error (.pattern p.display reason)
  | none => .ok p.items

theorem LikePattern.compile_eq_ok {engine : RegexEngine} {p : LikePattern} {is : List LikeItem} :
    p.compile engine = .ok is ↔ engine.refusal? p.regexSource = none ∧ p.items = is := by
  unfold compile
  cases engine.refusal? p.regexSource <;> simp

theorem LikePattern.compile_eq_error {engine : RegexEngine} {p : LikePattern} {x : ExecutionError} :
    p.compile engine = .error x ↔
      ∃ reason, engine.refusal? p.regexSource = some reason ∧ .pattern p.display reason = x := by
  unfold compile
  cases engine.refusal? p.regexSource <;> simp

namespace Predicate

abbrev Outcome : Type := Except ExecutionError Truth

/-- What is not a number is unequal to everything and in no other relation to it. -/
def related (r : Relation) : Option Ordering → Bool
  | some o => r.holds o
  | none => r == .ne

/-- Constants have no order that a filter may ask for. -/
def comparable? (r : Relation) (field literal : Value) : Option (Option Ordering) :=
  match field, literal with
  | .constant _, .constant _ => if r.isOrdering then none else field.order? literal
  | _, _ => field.order? literal

/-- A field has to meet a literal of its own type. -/
def compareValue (path : Path) (r : Relation) (literal field : Value) :
    Except ExecutionError Bool :=
  match comparable? r field literal with
  | some o => .ok (related r o)
  | none => .error (.typeMismatch path.selector field.typeName literal.typeName)

def matchValue (path : Path) (items : List LikeItem) : Value → Except ExecutionError Bool
  | .string s => .ok (LikeItem.matchesAll items s.toList)
  | other => .error (.typeMismatch path.selector other.typeName "string pattern")

/-- Reads what a path reached and tests it. What is missing is neither true nor false. -/
def testStored (path : Path) (test : Value → Except ExecutionError Bool) : Option Json → Outcome
  | none => .ok .unknown
  | some stored =>
    match Record.read path stored with
    | .error e => .error e
    | .ok none => .ok .unknown
    | .ok (some v) => (test v).map Truth.ofBool

/-- Whether some value that the path reaches passes a test. -/
def someValue (record : Json) (path : Path) (test : Value → Except ExecutionError Bool) : Outcome := do
  let vs ← Record.values record path
  Truth.any (testStored path test) vs

def negateIf (negated : Bool) (t : Truth) : Truth := if negated then t.not else t

def evalCompare (record : Json) (path : Path) (r : Relation) (v : Value) : Outcome :=
  someValue record path (compareValue path r v)

def evalContains (record : Json) (path : Path) (v : Value) (negated : Bool) : Outcome :=
  (someValue record path (compareValue path .eq v)).map (negateIf negated)

def evalLike (record : Json) (path : Path) (items : List LikeItem) (negated : Bool) : Outcome :=
  (someValue record path (matchValue path items)).map (negateIf negated)

/-- Sizes are counted as integers and compared with no other values. -/
def evalSize (record : Json) (path : Path) (r : Relation) (v : Value) : Outcome :=
  match v with
  | .integer n => do
    let counts ← Record.counts record path
    Truth.any (fun (count : Nat) => .ok (.ofBool (r.holds (Ord.compare (count : Int) n)))) counts
  | other => .error (.invalidSizeArgument path.selector other.typeName)

/-- The right operand of a connector is left out when the left one decides. A pattern is compiled
before anything is read. -/
def eval (engine : RegexEngine) (record : Json) : Predicate → Outcome
  | and p q => do
    let t ← p.eval engine record
    if t = .false then .ok .false else (q.eval engine record).map t.and
  | or p q => do
    let t ← p.eval engine record
    if t = .true then .ok .true else (q.eval engine record).map t.or
  | not p => (p.eval engine record).map Truth.not
  | compare path r v => evalCompare record path r v
  | like path pattern negated => do
    let items ← pattern.compile engine
    evalLike record path items negated
  | contains path v negated => evalContains record path v negated
  | size path r v => evalSize record path r v

def selects (engine : RegexEngine) (p : Predicate) (record : Json) : Except ExecutionError Bool :=
  (p.eval engine record).map (· == .true)

/-- The items on which the predicate is true of the record beside them, in their order. The first
record that fails ends it. -/
def select {α : Type} (engine : RegexEngine) (p : Predicate) (record : α → Json) :
    List α → Except ExecutionError (List α)
  | [] => .ok []
  | x :: xs => do
    let selected ← p.selects engine (record x)
    let rest ← p.select engine record xs
    .ok (if selected then x :: rest else rest)

end Predicate

end EntityFilter

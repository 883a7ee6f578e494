import EntityFilter.Filter.Compilation
import EntityFilter.Filter.Evaluator
import EntityFilter.Model.Document

namespace EntityFilter

structure CheckOptions where
  query : String
  scope : Scope
  /-- A JSON array of records, or a single record. -/
  input : Option String
  compileOnly : Bool

inductive CheckResult where
  | compiled (p : Predicate)
  | matched (p : Predicate) (records : List Json)

inductive CheckError where
  | compile (e : CompileError)
  | noInput
  | json (f : JsonFault)
  | execution (e : ExecutionError)
deriving DecidableEq, Repr

/-- The records of an input: any value but an array is a record by itself. -/
def Json.records : Json → List Json
  | .array records => records
  | record => [record]

namespace CheckOptions

def selectFrom (engine : RegexEngine) (o : CheckOptions) (p : Predicate) :
    Except CheckError CheckResult := do
  let some text := o.input | .error .noInput
  let input ← (Json.ofText text).mapError .json
  let records ← ((Evaluator.new engine).select p id input.records).1.mapError .execution
  .ok (.matched p records)

/-- Compiles the query and, unless that is all that is asked for, selects the records it is true of.
-/
def check (engine : RegexEngine) (o : CheckOptions) : Except CheckError CheckResult := do
  let p ← (Predicate.ofQuery o.scope o.query).mapError .compile
  if o.compileOnly then .ok (.compiled p) else o.selectFrom engine p

end CheckOptions

end EntityFilter

import EntityFilter.Program.Arguments
import EntityFilter.Program.Check
import EntityFilter.Program.Manual

namespace EntityFilter.Program

structure Output where
  exit : Nat
  stdout : String
  stderr : String
deriving DecidableEq, Repr

/-- Why the program ends without a result. -/
inductive Failure where
  | missingSchema
  | schema (e : DocumentError SchemaError)
  | missingPolicy
  | policy (e : DocumentError PolicyError)
  | invalidAlias (argument : String)
  | check (e : CheckError)
  | unknownCategory (word : String)

def faultText : JsonFault → String
  | .malformed => "the text is not JSON"
  | .truncated => "the text ends too early"
  | .unfit => "the value has the wrong shape"

def missingFile : String := "No such file or directory (os error 2)"

def checkMessage : CheckError → String
  | .compile e => e.message
  | .noInput => "no input provided. Use --input or pipe JSON to stdin."
  | .json f => s!"invalid JSON input: {faultText f}"
  | .execution e => s!"execution error: {e.message}"

def Failure.message : Failure → String
  | missingSchema => s!"failed to read schema: {missingFile}"
  | schema (.json f) => s!"invalid schema: {faultText f}"
  | schema (.invalid e) => e.message
  | missingPolicy => s!"failed to read configuration: {missingFile}"
  | policy (.json f) => s!"invalid configuration: {faultText f}"
  | policy (.invalid e) => e.message
  | invalidAlias a => s!"invalid alias '{a}', expected external=internal"
  | check e => checkMessage e
  | unknownCategory w =>
    s!"unknown category: '{w}'\nRun 'fiql docs' to see available categories."

/-- Splits an alias at its first `=`. -/
def parseAlias (argument : String) : Except Failure (String × String) :=
  let cs := argument.toList
  let external := cs.takeWhile (· != '=')
  let internal := (cs.dropWhile (· != '=')).drop 1
  if external.isEmpty || internal.isEmpty then .error (.invalidAlias argument)
  else .ok (String.ofList external, String.ofList internal)

def manualPage (word : String) : Except Failure String :=
  match Manual.Category.ofWord? word with
  | some c => .ok (Manual.page c)
  | none => .error (.unknownCategory word)

/-- The text of a file, if there is one under that name. -/
abbrev Files : Type := String → Option String

def readSchema (files : Files) (path : String) : Except Failure Schema :=
  match files path with
  | none => .error .missingSchema
  | some text => (Schema.ofText text).mapError .schema

def readPolicy (files : Files) (path : Option String) : Except Failure Policy :=
  match path with
  | none => .ok .empty
  | some path =>
    match files path with
    | none => .error .missingPolicy
    | some text => (Policy.ofText text).mapError .policy

def addAliases (p : Policy) (arguments : List String) : Except Failure Policy :=
  arguments.foldlM (fun p argument => do
    let (external, internal) ← parseAlias argument
    .ok (p.addAlias external internal)) p

/-- What the arguments say is added to what the file says. -/
def policyOf (files : Files) (a : CheckArguments) : Except Failure Policy := do
  let p ← readPolicy files a.config
  let p ← addAliases (a.allow.foldl Policy.allow p) a.aliases
  .ok { p with alwaysWildcard := p.alwaysWildcard || a.alwaysWildcard }

/-- A standard input that is a terminal is none. -/
def checkOptions (files : Files) (stdin : Option String) (schema entity query : String)
    (a : CheckArguments) : Except Failure CheckOptions := do
  let schema ← readSchema files schema
  let policy ← policyOf files a
  let input := a.input.or (if a.compileOnly then none else stdin)
  .ok ⟨query, ⟨schema.graph, entity, policy⟩, input, a.compileOnly⟩

def line (s : String) : String := s ++ "\n"

/-- Results go to standard output. The predicate that selected records goes beside them. -/
def resultOutput (pretty : Bool) : CheckResult → Output
  | .compiled p => ⟨0, line p.display, ""⟩
  | .matched p records =>
    let found := Json.array records
    ⟨0, line (if pretty then found.pretty else found.compact), line p.display⟩

def failureOutput (f : Failure) : Output := ⟨1, "", line f.message⟩

def orFailure (o : Except Failure Output) : Output :=
  match o with
  | .ok o => o
  | .error f => failureOutput f

def runCheck (engine : RegexEngine) (files : Files) (stdin : Option String)
    (schema entity query : String) (a : CheckArguments) : Except Failure Output := do
  let options ← checkOptions files stdin schema entity query a
  let result ← (options.check engine).mapError .check
  .ok (resultOutput a.pretty result)

def version : String := "fiql 0.2.0"

def usage : String :=
  Manual.text [
    "Usage: fiql check <QUERY> --schema <FILE> --entity <NAME> [OPTIONS]",
    "       fiql docs",
    "       fiql doc <CATEGORY>"]

/-- Standard output is all that a request without a check writes. -/
def written (s : String) : Output := ⟨0, s, ""⟩

/-- The program as a function of its arguments, the files they name, and its input. -/
def run (engine : RegexEngine) (files : Files) (stdin : Option String) (arguments : List String) :
    Output :=
  match Request.ofArguments arguments with
  | none => ⟨2, "", usage⟩
  | some .version => written (line version)
  | some .help => written usage
  | some .docs => written Manual.overview
  | some (.doc category) => orFailure ((manualPage category).map written)
  | some (.check schema entity query a) =>
    orFailure (runCheck engine files stdin schema entity query a)

end EntityFilter.Program

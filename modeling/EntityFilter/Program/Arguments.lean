namespace EntityFilter.Program

structure CheckArguments where
  query : Option String
  schema : Option String
  entity : Option String
  config : Option String
  allow : List String
  aliases : List String
  alwaysWildcard : Bool
  input : Option String
  compileOnly : Bool
  pretty : Bool
deriving DecidableEq, Repr

def CheckArguments.empty : CheckArguments :=
  ⟨none, none, none, none, [], [], false, none, false, false⟩

inductive Request where
  | version
  | help
  | docs
  | doc (category : String)
  | check (schema entity query : String) (more : CheckArguments)
deriving DecidableEq, Repr

/-- What may be set by name. -/
inductive Setting where
  | schema
  | entity
  | config
  | allow
  | aliases
  | input
  | alwaysWildcard
  | compileOnly
  | pretty
deriving DecidableEq, Repr

namespace Setting

def all : List Setting :=
  [schema, entity, config, allow, aliases, input, alwaysWildcard, compileOnly, pretty]

def long : Setting → String
  | schema => "schema"
  | entity => "entity"
  | config => "config"
  | allow => "allow"
  | aliases => "alias"
  | input => "input"
  | alwaysWildcard => "always-wildcard"
  | compileOnly => "compile-only"
  | pretty => "pretty"

def short? : Setting → Option Char
  | schema => some 's'
  | entity => some 'e'
  | config => some 'c'
  | allow => some 'a'
  | input => some 'i'
  | pretty => some 'p'
  | aliases | alwaysWildcard | compileOnly => none

def takesValue : Setting → Bool
  | alwaysWildcard | compileOnly | pretty => false
  | schema | entity | config | allow | aliases | input => true

def ofLong? (name : List Char) : Option Setting := all.find? (·.long.toList == name)

def ofShort? (c : Char) : Option Setting := all.find? (·.short? == some c)

end Setting

namespace CheckArguments

/-- A setting that is no list is given once. -/
def once (old : Option String) (new : String) : Option (Option String) :=
  if old.isSome then none else some (some new)

/-- The path of a file is not empty. -/
def oncePath (old : Option String) (new : String) : Option (Option String) :=
  if new.isEmpty then none else once old new

def setValue (a : CheckArguments) (v : String) : Setting → Option CheckArguments
  | .schema => (oncePath a.schema v).map fun x => { a with schema := x }
  | .entity => (once a.entity v).map fun x => { a with entity := x }
  | .config => (oncePath a.config v).map fun x => { a with config := x }
  | .allow => some { a with allow := a.allow ++ [v] }
  | .aliases => some { a with aliases := a.aliases ++ [v] }
  | .input => (once a.input v).map fun x => { a with input := x }
  | .alwaysWildcard | .compileOnly | .pretty => none

def setFlag (a : CheckArguments) : Setting → Option CheckArguments
  | .alwaysWildcard => if a.alwaysWildcard then none else some { a with alwaysWildcard := true }
  | .compileOnly => if a.compileOnly then none else some { a with compileOnly := true }
  | .pretty => if a.pretty then none else some { a with pretty := true }
  | .schema | .entity | .config | .allow | .aliases | .input => none

def setQuery (a : CheckArguments) (v : String) : Option CheckArguments :=
  (once a.query v).map fun x => { a with query := x }

def finish (a : CheckArguments) : Option Request := do
  let schema ← a.schema
  let entity ← a.entity
  let query ← a.query
  some (.check schema entity query a)

end CheckArguments

/-- An argument by its form. A lone `-` is a value. -/
inductive Form where
  | escape
  | long (name : List Char) (value : Option (List Char))
  | short (names : List Char)
  | value (text : String)
deriving DecidableEq, Repr

def Form.ofLong (cs : List Char) : Form :=
  let name := cs.takeWhile (· != '=')
  match cs.dropWhile (· != '=') with
  | [] => .long name none
  | _ :: v => .long name (some v)

def Form.of (argument : String) : Form :=
  match argument.toList with
  | ['-', '-'] => .escape
  | '-' :: '-' :: cs => .ofLong cs
  | ['-'] => .value argument
  | '-' :: cs => .short cs
  | _ => .value argument

/-- What the names in one argument come to. -/
inductive Named where
  | help
  /-- All are set. -/
  | set (a : CheckArguments)
  /-- The last waits for its value. -/
  | waits (a : CheckArguments) (s : Setting)

def named (a : CheckArguments) (s : Setting) (value : Option (List Char)) : Option Named :=
  match s.takesValue, value with
  | true, some v => (a.setValue (String.ofList v) s).map .set
  | true, none => some (.waits a s)
  | false, none => (a.setFlag s).map .set
  | false, some _ => none

def longNamed (a : CheckArguments) (name : List Char) (value : Option (List Char)) : Option Named :=
  if name = "help".toList then (if value.isNone then some .help else none)
  else (Setting.ofLong? name).bind fun s => named a s value

/-- Short names stand together. The first that takes a value has the rest for it, behind a `=` or
not. -/
def shortNamed (a : CheckArguments) : List Char → Option Named
  | [] => some (.set a)
  | c :: cs =>
    if c = 'h' then some .help
    else
      match Setting.ofShort? c with
      | none => none
      | some s =>
        if s.takesValue then
          named a s (match cs with
            | [] => none
            | '=' :: v => some v
            | v => some v)
        else (a.setFlag s).bind fun a => shortNamed a cs

def checkValues (a : CheckArguments) : List String → Option CheckArguments
  | [] => some a
  | v :: vs => (a.setQuery v).bind fun a => checkValues a vs

def parseCheck (a : CheckArguments) : List String → Option Request
  | [] => a.finish
  | argument :: rest =>
    let proceed : Option Named → Option Request
      | none => none
      | some .help => some .help
      | some (.set a) => parseCheck a rest
      | some (.waits a s) =>
        match rest with
        | [] => none
        | v :: rest =>
          match Form.of v with
          | .value v => (a.setValue v s).bind fun a => parseCheck a rest
          | _ => none
    match Form.of argument with
    | .escape => (checkValues a rest).bind (·.finish)
    | .long name value => proceed (longNamed a name value)
    | .short names => proceed (shortNamed a names)
    | .value v => (a.setQuery v).bind fun a => parseCheck a rest

/-- Values of a command without settings, at most `n` of them. -/
def parseValues : Nat → List String → List String → Option (Except Request (List String))
  | _, vs, [] => some (.ok vs)
  | n, vs, argument :: rest =>
    match Form.of argument with
    | .escape => if rest.length ≤ n then some (.ok (vs ++ rest)) else none
    | .long name none => if name = "help".toList then some (.error .help) else none
    | .long _ (some _) => none
    | .short ('h' :: _) => some (.error .help)
    | .short _ => none
    | .value v =>
      match n with
      | 0 => none
      | n + 1 => parseValues n (vs ++ [v]) rest

def parseDocs (rest : List String) : Option Request :=
  match parseValues 0 [] rest with
  | some (.ok _) => some .docs
  | some (.error r) => some r
  | none => none

def parseDoc (rest : List String) : Option Request :=
  match parseValues 1 [] rest with
  | some (.ok [category]) => some (.doc category)
  | some (.error r) => some r
  | _ => none

def commands : List String := ["check", "docs", "doc", "help"]

/-- The request that arguments make, or none if they make none. They are taken from left to right,
and what is wrong with the first of them ends it; what is missing is found at the end. -/
def Request.ofArguments : List String → Option Request
  | [] => none
  | argument :: rest =>
    match Form.of argument with
    | .value "check" => parseCheck .empty rest
    | .value "docs" => parseDocs rest
    | .value "doc" => parseDoc rest
    | .value "help" =>
      match rest with
      | [] => some .help
      | [command] => if commands.contains command then some .help else none
      | _ => none
    | .long name none =>
      if name = "help".toList then some .help
      else if name = "version".toList then some .version
      else none
    | .short ('h' :: _) => some .help
    | .short ('V' :: _) => some .version
    | _ => none

end EntityFilter.Program

import EntityFilter.Table

namespace EntityFilter

/-- Which selectors a filter may use, what they stand for, and how text is compared. -/
structure Policy where
  /-- The allow-list, as selectors are written in queries. -/
  allowed : Table Unit
  /-- From selectors as written to paths of attributes. -/
  aliases : Table String
  /-- Whether every equality of text asks for a part of it. -/
  alwaysWildcard : Bool
deriving DecidableEq

inductive PolicyError where
  | emptyAlias (external : String)
deriving DecidableEq, Repr

def PolicyError.message : PolicyError → String
  | emptyAlias e => s!"alias '{e}' must map to a non-empty selector"

namespace Policy

def empty : Policy := ⟨.empty, .empty, false⟩

def allow (p : Policy) (selector : String) : Policy :=
  { p with allowed := p.allowed.insert selector () }

def ofSelectors (selectors : List String) : Policy := selectors.foldl allow empty

def addAlias (p : Policy) (external internal : String) : Policy :=
  { p with aliases := p.aliases.insert external internal }

def isAllowed (p : Policy) (selector : String) : Bool := p.allowed.contains selector

/-- A selector without an alias stands for itself. -/
def mapSelector (p : Policy) (selector : String) : String :=
  (p.aliases.get? selector).getD selector

/-- Of several aliases for nothing the first by name is told. -/
def validate (p : Policy) : Except PolicyError Unit :=
  match p.aliases.entries.find? (·.2.isEmpty) with
  | none => .ok ()
  | some e => .error (.emptyAlias e.1)

end Policy

end EntityFilter

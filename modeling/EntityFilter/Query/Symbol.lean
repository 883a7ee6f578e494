namespace EntityFilter

/-- Relations between an attribute and an argument. -/
inductive Relation where
  | eq
  | ne
  | gt
  | lt
  | ge
  | le
deriving DecidableEq, Repr

namespace Relation

def all : List Relation := [eq, ne, gt, lt, ge, le]

/-- As written in a query. -/
def symbol : Relation → String
  | eq => "=="
  | ne => "!="
  | gt => "=gt="
  | lt => "=lt="
  | ge => "=ge="
  | le => "=le="

/-- As written in a predicate. -/
def name : Relation → String
  | eq => "eq"
  | ne => "ne"
  | gt => "gt"
  | lt => "lt"
  | ge => "ge"
  | le => "le"

def isOrdering : Relation → Bool
  | eq | ne => false
  | gt | lt | ge | le => true

/-- Whether two things that stand in the given order are related. -/
def holds : Relation → Ordering → Bool
  | eq, o => o == .eq
  | ne, o => o != .eq
  | gt, o => o == .gt
  | lt, o => o == .lt
  | ge, o => o != .lt
  | le, o => o != .gt

end Relation

/-- Connectors between whole filters. `nand` and `nor` join the negations of their operands. -/
inductive Connector where
  | and
  | or
  | nand
  | nor
deriving DecidableEq, Repr

namespace Connector

def all : List Connector := [and, or, nand, nor]

def symbol : Connector → Char
  | and => ','
  | or => ';'
  | nand => '.'
  | nor => ':'

def ofSymbol? (c : Char) : Option Connector := all.find? (·.symbol == c)

/-- Whether the connector binds tighter than the others. -/
def isTight : Connector → Bool
  | and | nand => true
  | or | nor => false

end Connector

end EntityFilter

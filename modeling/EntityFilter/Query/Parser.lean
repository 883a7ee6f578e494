import EntityFilter.Query.Token
import EntityFilter.Query.Expression

namespace EntityFilter

/-- Levels that a tree may have, and groups that may be open at once. -/
def maxDepth : Nat := 512

/-- What a token is called where it was not expected. -/
def Token.description : Option Token → String
  | none => "end of input"
  | some (.selector s) => s!"selector '{s}'"
  | some (.relation r) => s!"operator '{r.symbol}'"
  | some (.argument l) => s!"argument {l.display}"
  | some (.connector c) => s!"connector '{c.symbol}'"
  | some .opening => "'('"
  | some .closing => "')'"

inductive ParseError where
  | lex (e : LexError)
  | unexpected (expected : Expected) (found : Option Token) (position : Nat)
  | empty
  | tooDeep (position : Nat)
deriving DecidableEq, Repr

def ParseError.message : ParseError → String
  | lex e => e.message
  | unexpected e t p => s!"expected {e.text} at position {p}, got {Token.description t}"
  | empty => "empty filter expression"
  | tooDeep p => s!"filter nests deeper than {maxDepth} levels at position {p}"

/-- A complete operand with the number of its levels. -/
structure Operand where
  expression : Expression
  levels : Nat
  levels_eq : levels = expression.height

namespace Operand

def comparison (selector : String) (r : Relation) (l : Literal) : Operand :=
  ⟨.comparison selector r l, 1, rfl⟩

def join (c : Connector) (a b : Operand) : Operand :=
  ⟨.joined c a.expression b.expression, 1 + max a.levels b.levels, by
    simp [Expression.height, a.levels_eq, b.levels_eq]⟩

end Operand

/-- A connector at `position` that waits for its right operand. -/
structure Pending where
  left : Operand
  connector : Connector
  position : Nat

def Pending.join? (p : Pending) (right : Operand) : Except ParseError Operand :=
  let joined := p.left.join p.connector right
  if maxDepth < joined.levels then .error (.tooDeep p.position) else .ok joined

def joinPending : Option Pending → Operand → Except ParseError Operand
  | none, x => .ok x
  | some p, x => p.join? x

/-- A group whose end has not come yet. -/
structure Group where
  loose : Option Pending
  tight : Option Pending

def Group.new : Group := ⟨none, none⟩

/-- What comes next in a comparison or after it. -/
inductive Stage where
  | operand
  | relation (selector : String)
  | argument (selector : String) (r : Relation)
  | connector (operand : Operand)

structure ParseState where
  stage : Stage
  group : Group
  outer : List Group

namespace ParseState

def start : ParseState := ⟨.operand, .new, []⟩

/-- Ends the group: what waits in it is joined, the tight connector first. -/
def closeGroup (s : ParseState) (x : Operand) : Except ParseError Operand := do
  let x ← joinPending s.group.tight x
  joinPending s.group.loose x

/-- A connector after the operand `x`. -/
def connect (s : ParseState) (x : Operand) (c : Connector) (position : Nat) :
    Except ParseError ParseState := do
  if c.isTight then
    let x ← joinPending s.group.tight x
    .ok { s with stage := .operand, group := { s.group with tight := some ⟨x, c, position⟩ } }
  else
    let x ← s.closeGroup x
    .ok { s with stage := .operand, group := ⟨some ⟨x, c, position⟩, none⟩ }

/-- Any other token after the operand `x`. It ends the group, so what waits is joined before the
token is looked at. -/
def close (s : ParseState) (x : Operand) (t : Token) (position : Nat) :
    Except ParseError ParseState := do
  let x ← s.closeGroup x
  match s.outer, t with
  | g :: gs, .closing => .ok ⟨.connector x, g, gs⟩
  | _ :: _, _ => .error (.unexpected .closing (some t) position)
  | [], _ => .error (.unexpected .finish (some t) position)

/-- Takes the token that starts behind `position`. -/
def take (s : ParseState) (t : Token) (position : Nat) : Except ParseError ParseState :=
  match s.stage, t with
  | .operand, .opening =>
    if s.outer.length = maxDepth then .error (.tooDeep position)
    else .ok ⟨.operand, .new, s.group :: s.outer⟩
  | .operand, .selector text => .ok { s with stage := .relation text }
  | .operand, _ => .error (.unexpected .operand (some t) position)
  | .relation text, .relation r => .ok { s with stage := .argument text r }
  | .relation _, _ => .error (.unexpected .relation (some t) position)
  | .argument text r, .argument l => .ok { s with stage := .connector (.comparison text r l) }
  | .argument _ _, _ => .error (.unexpected .argument (some t) position)
  | .connector x, .connector c => s.connect x c position
  | .connector x, _ => s.close x t position

/-- The whole tree, where the input ends. -/
def finish (s : ParseState) (position : Nat) : Except ParseError Expression :=
  match s.stage with
  | .operand => .error (.unexpected .operand none position)
  | .relation _ => .error (.unexpected .relation none position)
  | .argument _ _ => .error (.unexpected .argument none position)
  | .connector x => do
    let x ← s.closeGroup x
    if s.outer.isEmpty then .ok x.expression
    else .error (.unexpected .closing none position)

end ParseState

/-- Reads one token ahead and goes through the tokens once. `,` and `.` bind tighter than `;` and
`:`, connectors of one strength group to the left, and parentheses group. -/
structure Parser where
  /-- Behind the token that was read last. -/
  lexer : Lexer
  /-- The token to be taken. There is none at the end of the input, and none where a call failed
  that had used it up. -/
  current : Option Token
  /-- Where the lexer stood when it was asked last. -/
  position : Nat
  /-- Groups that calls which failed have left open. -/
  nesting : Nat

/-- Whether the token opens a group in the state. -/
def ParseState.opens (s : ParseState) (t : Token) : Bool :=
  match s.stage, t with
  | .operand, .opening => true
  | _, _ => false

/-- What is left of a token that was taken, until the next one is read: what is new in the tree is
used up at once. -/
def Token.held : Token → Option Token
  | .opening | .selector _ | .argument _ => none
  | t => some t

namespace Parser

/-- Takes a token. Groups that calls before have left open count with those of this one. -/
def take (nesting : Nat) (s : ParseState) (t : Token) (position : Nat) :
    Except ParseError ParseState :=
  if s.opens t ∧ nesting + s.outer.length = maxDepth then .error (.tooDeep position)
  else s.take t position

/-- Goes on from the state that takes the token, read ahead up to `l`. A token that is refused
stays, unless it opens a group, and so do the groups around it. -/
def proceed (nesting : Nat) (s : ParseState) (t : Token) (position : Nat) (l : Lexer)
    (further : ParseState → Except ParseError Expression × Parser) :
    Except ParseError Expression × Parser :=
  match take nesting s t position with
  | .ok s' => further s'
  | .error e =>
    (.error e, ⟨l, if s.opens t then none else some t, position, nesting + s.outer.length⟩)

/-- Goes through the steps from `l` on, where `last` is the token in front of them. A group that it
closes is open until the token behind it is read. -/
def run (nesting : Nat) (s : ParseState) (last : Option Token) (l : Lexer) :
    List Lexer.Step → Except ParseError Expression × Parser
  | [] => (s.finish l.offset, ⟨l.next.2, none, l.offset, nesting + s.outer.length⟩)
  | ⟨.error e, l'⟩ :: _ =>
    let closing := if last = some .closing then 1 else 0
    (.error (.lex e),
      ⟨l', last.bind Token.held, l.offset, nesting + s.outer.length + closing⟩)
  | ⟨.ok t, l'⟩ :: steps =>
    proceed nesting s t l.offset l' fun s' => run nesting s' (some t) l' steps

/-- The next tree and the parser after it. -/
def parse (p : Parser) : Except ParseError Expression × Parser :=
  match p.current with
  | none => (.error .empty, p)
  | some t =>
    proceed p.nesting .start t p.position p.lexer fun s =>
      run p.nesting s (some t) p.lexer p.lexer.steps

/-- A parser has read its first token. -/
def ofLexer (l : Lexer) : Except ParseError Parser :=
  match l.next with
  | (.error e, _) => .error (.lex e)
  | (.ok t, l') => .ok ⟨l', t, l.offset, 0⟩

end Parser

def Expression.ofQuery (query : String) : Except ParseError Expression := do
  let p ← Parser.ofLexer (.ofQuery query)
  p.parse.1

end EntityFilter

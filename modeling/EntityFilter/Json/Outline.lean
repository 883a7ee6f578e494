import EntityFilter.Json.Token

namespace EntityFilter

/-- How an array or object ends. -/
inductive Ending where
  | closed
  /-- The text ends behind an item or in front of the first. -/
  | cut
  /-- The text ends behind a comma. -/
  | cutAfterComma
  | malformed
  /-- The first key is no string. Where any value would do, it has this fault. -/
  | badKey (asValue : JsonFault)
  /-- The last item is not whole. The fault is that of a reader who skips it. -/
  | within (f : JsonFault)
deriving DecidableEq, Repr

/-- The fault of a list or object that ends so. -/
def Ending.fault? : Ending → Option JsonFault
  | closed => none
  | cut | cutAfterComma => some .truncated
  | malformed | badKey _ => some .malformed
  | within f => some f

/-- A JSON text as far as it is well formed. Where the text stops being JSON the outline has a
broken value or an array or object without its end, so that a reader who goes through it from left
to right meets its first fault where the text has it. -/
inductive Outline where
  | null
  | bool (b : Bool)
  | number (n : NumberText)
  | string (text : Except JsonFault String)
  | array (items : List Outline) (ending : Ending)
  | object (members : List (Except JsonFault String × Outline)) (ending : Ending)
  | broken (b : Broken)

namespace Outline

/-- The fault of a reader who skips the value. -/
def skipFault? : Outline → Option JsonFault
  | array _ e => e.fault?
  | object _ e => e.fault?
  | broken b => some b.skipped
  | _ => none

/-- The fault of a reader who wants something else. A scalar is read before it is refused, an array
or object is not. -/
def refusal : Outline → JsonFault
  | number n => if n.value?.isNone then .malformed else .unfit
  | string (.error f) => f
  | broken b => b.wanted
  | _ => .unfit

def wrong : Outline := broken ⟨.other, .malformed, .malformed⟩

def missing : Outline := broken ⟨.nothing, .truncated, .truncated⟩

/-- An array or object that is still open. In an object, the key waits for its value. -/
inductive Frame where
  | array (items : List Outline)
  | object (members : List (Except JsonFault String × Outline)) (key : Except JsonFault String)

namespace Frame

/-- Items and members are kept last first while the frame is open. -/
def add (v : Outline) : Frame → Frame
  | array items => array (v :: items)
  | object members key => object ((key, v) :: members) key

def close (e : Ending) : Frame → Outline
  | array items => .array items.reverse e
  | object members _ => .object members.reverse e

def setKey (key : Except JsonFault String) : Frame → Frame
  | object members _ => object members key
  | f => f

end Frame

/-- What may come next. -/
inductive Phase where
  | value
  | firstItem
  | item
  | firstKey
  | key
  | colon
  | next
deriving DecidableEq, Repr

inductive State where
  | reading (phase : Phase) (stack : List Frame)
  /-- The value is whole. -/
  | done (v : Outline)
  /-- The value is whole and something follows it. -/
  | trailing (v : Outline)
  /-- The text stopped being JSON. -/
  | failed (v : Outline)

namespace State

def start : State := reading .value []

def complete (stack : List Frame) (v : Outline) : State :=
  match stack with
  | [] => done v
  | f :: fs => reading .next (f.add v :: fs)

/-- Ends every open frame around a value that is not whole. -/
def abandoned (stack : List Frame) (v : Outline) : Outline :=
  stack.foldl (fun v f => (f.add v).close (.within (v.skipFault?.getD .malformed))) v

def abandon (stack : List Frame) (v : Outline) : State := failed (abandoned stack v)

/-- Ends the innermost frame in a way that is not regular, and the others around it. -/
def breakOff (stack : List Frame) (e : Ending) : Outline :=
  match stack with
  | [] => missing
  | f :: fs => abandoned fs (f.close e)

def stepValue (stack : List Frame) : JsonToken → State
  | .null => complete stack .null
  | .bool b => complete stack (.bool b)
  | .number n => complete stack (.number n)
  | .string t => complete stack (.string t)
  | .openArray => reading .firstItem (.array [] :: stack)
  | .openObject => reading .firstKey (.object [] (.ok "") :: stack)
  | .broken b => abandon stack (.broken b)
  | .closeArray | .closeObject | .comma | .colon => abandon stack wrong

def closeTop (stack : List Frame) : State :=
  match stack with
  | [] => failed wrong
  | f :: fs => complete fs (f.close .closed)

/-- What a key that is no string would be as a value. -/
def keyAsValue : JsonToken → JsonFault
  | .number n => (Outline.number n).refusal
  | .broken b => b.wanted
  | .closeArray | .closeObject | .comma | .colon => .malformed
  | .null | .bool _ | .string _ | .openArray | .openObject => .unfit

def stepKey (stack : List Frame) (irregular : JsonToken → Ending) (t : JsonToken) : State :=
  match stack, t with
  | f :: fs, .string key => reading .colon (f.setKey key :: fs)
  | f :: fs, .broken ⟨.string, wanted, skipped⟩ =>
    abandon (f.setKey (.error wanted) :: fs) (.broken ⟨.string, wanted, skipped⟩)
  | stack, t => failed (breakOff stack (irregular t))

def stepNext (stack : List Frame) (t : JsonToken) : State :=
  match stack, t with
  | .array _ :: _, .comma => reading .item stack
  | .array _ :: _, .closeArray => closeTop stack
  | .object _ _ :: _, .comma => reading .key stack
  | .object _ _ :: _, .closeObject => closeTop stack
  | stack, _ => failed (breakOff stack .malformed)

def step (s : State) (t : JsonToken) : State :=
  match s with
  | reading .value stack => stepValue stack t
  | reading .firstItem stack =>
    match t with
    | .closeArray => closeTop stack
    | t => stepValue stack t
  | reading .item stack =>
    match t with
    | .closeArray => failed (breakOff stack .malformed)
    | t => stepValue stack t
  | reading .firstKey stack =>
    match t with
    | .closeObject => closeTop stack
    | t => stepKey stack (fun t => .badKey (keyAsValue t)) t
  | reading .key stack => stepKey stack (fun _ => .malformed) t
  | reading .colon stack =>
    match t with
    | .colon => reading .value stack
    | _ => abandon stack wrong
  | reading .next stack => stepNext stack t
  | done v => trailing v
  | trailing v => trailing v
  | failed v => failed v

/-- The outline where the text ends, and whether anything follows the value. -/
def finish : State → Outline × Bool
  | reading .value stack => (abandoned stack missing, false)
  | reading .colon stack => (abandoned stack missing, false)
  | reading .item stack => (breakOff stack .cutAfterComma, false)
  | reading .key stack => (breakOff stack .cutAfterComma, false)
  | reading .firstItem stack => (breakOff stack .cut, false)
  | reading .firstKey stack => (breakOff stack .cut, false)
  | reading .next stack => (breakOff stack .cut, false)
  | done v => (v, false)
  | trailing v => (v, true)
  | failed v => (v, false)

end State

/-- The outline of the value that a text starts with, and whether anything follows it. -/
def ofText (cs : List Char) : Outline × Bool :=
  ((JsonToken.tokens cs).foldl State.step .start).finish

end Outline

end EntityFilter

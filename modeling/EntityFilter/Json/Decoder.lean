import EntityFilter.Table
import EntityFilter.Json.Outline

namespace EntityFilter

/-- Reads an outline from left to right as a value of a type, or says with which fault that fails.
It is told how many arrays and objects it may still enter. -/
abbrev Decoder (α : Type) : Type := Nat → Outline → Except JsonFault α

namespace Decoder

/-- The arrays and objects that may lie in one another. -/
def maxNesting : Nat := 127

def orFault {α : Type} (x : α) : Option JsonFault → Except JsonFault α
  | none => .ok x
  | some f => .error f

/-- A value that nobody looks at. It may nest as deep as it likes. -/
def skip : Decoder Unit := fun _ o => orFault () o.skipFault?

def text : Decoder String
  | _, .string t => t
  | _, o => .error o.refusal

def flag : Decoder Bool
  | _, .bool b => .ok b
  | _, o => .error o.refusal

def list {α : Type} (d : Decoder α) : Decoder (List α)
  | 0, .array _ _ => .error .malformed
  | n + 1, .array items e => do
    let xs ← items.mapM (d n)
    orFault xs e.fault?
  | _, o => .error o.refusal

/-- The fields of an object in the order of the text, with keys that may repeat. -/
def fields {α : Type} (d : Decoder α) : Decoder (List (String × α))
  | 0, .object _ _ => .error .malformed
  | n + 1, .object members e => do
    let xs ← members.mapM fun (key, v) => do
      let key ← key
      let v ← d n v
      .ok (key, v)
    orFault xs e.fault?
  | _, o => .error o.refusal

/-- Of equally named entries the last counts. -/
def table {α : Type} (d : Decoder α) : Decoder (Table α) := fun n o =>
  (fields d n o).map Table.ofList

mutual

def json : Decoder Json
  | _, .null => .ok .null
  | _, .bool b => .ok (.bool b)
  | _, .number t => (t.value?.map fun n => Except.ok (.number n)).getD (.error .malformed)
  | _, .string t => t.map .string
  | 0, .array _ _ => .error .malformed
  | n + 1, .array items e => do
    let xs ← jsonItems n items
    orFault (.array xs) e.fault?
  | 0, .object _ _ => .error .malformed
  | n + 1, .object members e => do
    let xs ← jsonMembers n members
    orFault (.object (Table.ofList xs).entries) e.fault?
  | _, .broken b => .error b.wanted

def jsonItems (n : Nat) : List Outline → Except JsonFault (List Json)
  | [] => .ok []
  | o :: os => do
    let x ← json n o
    let xs ← jsonItems n os
    .ok (x :: xs)

def jsonMembers (n : Nat) :
    List (Except JsonFault String × Outline) → Except JsonFault (List (String × Json))
  | [] => .ok []
  | (key, o) :: os => do
    let key ← key
    let x ← json n o
    let xs ← jsonMembers n os
    .ok ((key, x) :: xs)

end

/-- What is to be done with the value of a field, given what has been read of the record. -/
inductive Field (σ : Type) where
  | read (d : Decoder σ)
  | skip
  | refuse

def Field.readInto {σ : Type} (n : Nat) (s : σ) (o : Outline) : Field σ → Except JsonFault σ
  | .read d => d n o
  | .skip => (Decoder.skip n o).map fun () => s
  | .refuse => .error .unfit

def memberInto {σ : Type} (field : σ → String → Field σ) (n : Nat) (s : σ)
    (member : Except JsonFault String × Outline) : Except JsonFault σ := do
  let key ← member.1
  (field s key).readInto n s member.2

/-- Behind the last field of a record in an array only its end may come. -/
def recordEnd : Ending → Option JsonFault
  | .closed => none
  | .cut => some .truncated
  | _ => some .malformed

def itemsInto {σ : Type} (n : Nat) (s : σ) (e : Ending) :
    List (σ → Field σ) → List Outline → Except JsonFault σ
  | [], [] => orFault s (recordEnd e)
  | [], _ :: _ => .error .malformed
  | _ :: _, [] => orFault s e.fault?
  | f :: fs, o :: os => do
    let s ← (f s).readInto n s o
    itemsInto n s e fs os

/-- Reads a record from an empty one: an object with known fields, `field` by their names, or an
array of them, `order` by their places. `build?` fails where a field is missing. -/
def record {σ α : Type} (empty : σ) (field : σ → String → Field σ) (order : List (σ → Field σ))
    (build? : σ → Option α) : Decoder α
  | 0, .object _ _ | 0, .array _ _ => .error .malformed
  | n + 1, .object members e => do
    let s ← members.foldlM (memberInto field n) empty
    let s ← orFault s e.fault?
    ((build? s).map Except.ok).getD (.error .unfit)
  | n + 1, .array items e => do
    let s ← itemsInto n empty e order items
    ((build? s).map Except.ok).getD (.error .unfit)
  | _, o => .error o.refusal

/-- A decoder for a field that may be given once. -/
def once {σ β : Type} (old : Option β) (d : Decoder β) (set : β → σ) : Field σ :=
  if old.isSome then .refuse else .read fun n o => (d n o).map set

/-- Reads a whole text. -/
def run {α : Type} (d : Decoder α) (s : String) : Except JsonFault α := do
  let (o, trailing) := Outline.ofText s.toList
  let x ← d maxNesting o
  if trailing then .error .malformed else .ok x

end Decoder

def Json.ofText (s : String) : Except JsonFault Json := Decoder.json.run s

end EntityFilter

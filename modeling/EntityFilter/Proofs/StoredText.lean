import EntityFilter.Proofs.TextEquality
import EntityFilter.Proofs.Typing

namespace EntityFilter

/-- Types whose values a record may hold as text. -/
def AttributeType.isStoredAsText : AttributeType → Bool
  | string | decimal | date | dateTime | enumeration _ _ => true
  | _ => false

namespace Value

/-- Every value but a double is equal to itself. -/
theorem order?_self {v : Value} (exact : ∀ x, v ≠ double x) : v.order? v = some (some .eq) := by
  cases v with
  | double x => exact absurd rfl (exact x)
  | decimal d => simp [order?, Decimal.order_self]
  | date d => simp [order?, Date.order_self]
  | instant t => simp [order?, Instant.order_self]
  | _ => simp [order?]

/-- Whatever value a text in quotes stands for as a type, a field of the type has that value where
it holds the text. Of decimals that takes that the scientific form reads nothing more. -/
theorem valueOf?_of_ofQuoted {type : AttributeType} {text : String} {v : Value}
    (stored : type.isStoredAsText = true) (h : ofLiteral (.ofQuoted text) type = .ok v) :
    Record.valueOf? type (.string text) = some v := by
  cases type <;> simp only [ofLiteral, unsuffixed_eq_ok] at h
  case string =>
    cases h
    simp [Record.valueOf?, Literal.verbatim, Literal.ofQuoted, Literal.suffixText]
  case decimal =>
    have read := orRefuse_eq_ok.mp h
    rwa [decimalOf?, Decimal.ofText?_or_ofScientific?] at read
  case date =>
    obtain ⟨-, h⟩ := h
    simp only [ofDate] at h
    split at h
    · cases h
    · split at h
      · rename_i d read
        cases h
        simp [Record.valueOf?, show Calendar.date text.toList = .ok d from read, Except.toOption]
      · cases h
  case dateTime => exact orRefuse_eq_ok.mp h.2
  case enumeration name variants =>
    obtain ⟨-, h⟩ := h
    split at h
    · rename_i known
      cases h
      exact if_pos known
    · cases h
  all_goals cases stored

end Value

/-- A text in quotes is read as no double where its type keeps texts. -/
theorem Value.not_double_of_ofQuoted {type : AttributeType} {text : String} {v : Value}
    (stored : type.isStoredAsText = true) (h : ofLiteral (.ofQuoted text) type = .ok v) (x : Double) :
    v ≠ double x := by
  rintro rfl
  have typed := isOf_valueOf? (valueOf?_of_ofQuoted stored h)
  cases type with
  | double => cases stored
  | _ => cases typed

namespace Predicate

open Fallible Record

theorem read_of_ofQuoted {path : Path} {text : String} {v : Value}
    (stored : path.target.type.isStoredAsText = true)
    (h : Value.ofLiteral (.ofQuoted text) path.target.type = .ok v) :
    Record.read path (.string text) = .ok (some v) := by
  simp only [Record.read, Value.valueOf?_of_ofQuoted stored h]

theorem compareValue_self {path : Path} {v : Value} (exact : ∀ x, v ≠ .double x) :
    compareValue path .eq v v = .ok true := by
  have equal : comparable? .eq v v = some (some .eq) := by
    cases v with
    | constant c => exact Value.order?_self exact
    | _ => exact Value.order?_self exact
  rw [compareValue, equal]
  rfl

/-- Where a literal can be read from a text, a field that holds the text has the same value, also at
the end of a path, and a comparison of the field with the literal for equality is true. -/
theorem eval_stored_text {engine : RegexEngine} {a : Attribute} (stored : a.type.isStoredAsText = true)
    {text : String} {v : Value} (h : Value.ofLiteral (.ofQuoted text) a.type = .ok v) :
    (∀ hops, Record.read ⟨hops, a⟩ (.string text) = .ok (some v) ∧
      compareValue ⟨hops, a⟩ .eq v v = .ok true) ∧
    ∀ record : Json, a.isCollection = false → record.get? a.name = some (.string text) →
      eval engine record (.compare ⟨[], a⟩ .eq v) = .ok .true := by
  have read (hops : List Attribute) : Record.read ⟨hops, a⟩ (.string text) = .ok (some v) :=
    read_of_ofQuoted stored h
  have equal (hops : List Attribute) : compareValue ⟨hops, a⟩ .eq v v = .ok true :=
    compareValue_self (Value.not_double_of_ofQuoted stored h)
  refine ⟨fun hops => ⟨read hops, equal hops⟩, fun record single field => ?_⟩
  have reached := values_of_field single field rfl
  simp only [eval, evalCompare, someValue, reached, bind, Except.bind, any_singleton, testStored, read,
    equal]
  rfl

/-- A fee that was stored with a power of ten. -/
theorem eval_stored_text_of_clinic :
    let fee : Attribute := ⟨"fee", .decimal, .single⟩
    let v : Value := .decimal ⟨false, 20, 0⟩
    Value.ofLiteral (.ofQuoted "2e1") fee.type = .ok v ∧
      Record.read ⟨[], fee⟩ (.string "2e1") = .ok (some v) ∧
      eval .standard (.object [("fee", .string "2e1")]) (.compare ⟨[], fee⟩ .eq v) = .ok .true := by
  intro fee v
  have literal : Value.ofLiteral (.ofQuoted "2e1") fee.type = .ok v := by decide
  obtain ⟨read, equal⟩ := @eval_stored_text .standard fee rfl _ _ literal
  exact ⟨literal, (read []).1, equal _ rfl rfl⟩

end Predicate

end EntityFilter

import EntityFilter.Filter.Evaluation

namespace EntityFilter

def Suffix.type : Suffix → AttributeType
  | long => .long
  | double => .double

/-- The type that a literal is read as where `t` is declared. -/
def Literal.typeAt (l : Literal) (t : AttributeType) : AttributeType :=
  if t.isNumeric then (l.suffix.map Suffix.type).getD t else t

theorem Literal.exists_suffix_of_typeAt_ne {l : Literal} {t : AttributeType} (h : l.typeAt t ≠ t) :
    t.isNumeric = true ∧ ∃ s, l.suffix = some s ∧ s.type ≠ t := by
  rw [typeAt] at h
  split at h
  · rename_i numeric
    refine ⟨numeric, ?_⟩
    cases hs : l.suffix with
    | none => simp [hs] at h
    | some s => exact ⟨s, rfl, by simpa [hs] using h⟩
  · exact absurd rfl h

namespace Value

open Predicate

/-- Whether a value is one of a type. A constant has to be one of those declared. -/
def isOf : AttributeType → Value → Bool
  | .string, string _ => true
  | .integer, integer _ => true
  | .long, long _ => true
  | .double, double _ => true
  | .decimal, decimal _ => true
  | .boolean, boolean _ => true
  | .date, date _ => true
  | .dateTime, instant _ => true
  | .enumeration _ variants, constant c => variants.contains c
  | _, _ => false

theorem orRefuse_eq_ok {l : Literal} {expected reason : String} {x : Option Value} {v : Value} :
    orRefuse l expected reason x = .ok v ↔ x = some v := by
  cases x <;> simp [orRefuse]

theorem unsuffixed_eq_ok {l : Literal} {t : AttributeType} {plain : Coerced} {v : Value} :
    unsuffixed l t plain = .ok v ↔ l.suffix = none ∧ plain = .ok v := by
  rw [unsuffixed]
  cases l.suffix <;> simp

theorem isOf_ofLong {l : Literal} {v : Value} (h : ofLong l = .ok v) : isOf .long v = true := by
  obtain ⟨n, _, rfl⟩ := Option.map_eq_some_iff.mp (orRefuse_eq_ok.mp h)
  rfl

theorem isOf_ofDouble {l : Literal} {v : Value} (h : ofDouble l = .ok v) :
    isOf .double v = true := by
  obtain ⟨x, _, rfl⟩ := Option.map_eq_some_iff.mp (orRefuse_eq_ok.mp h)
  rfl

/-- A number is of the type of its suffix, or of the type it is read as without one. -/
theorem isOf_ofNumber {l : Literal} {t : AttributeType} {plain : Literal → Coerced} {v : Value}
    (numeric : t.isNumeric = true) (plainOf : ∀ w, plain l = .ok w → isOf t w = true)
    (h : ofNumber l plain = .ok v) : isOf (l.typeAt t) v = true := by
  rw [ofNumber] at h
  rw [Literal.typeAt, if_pos numeric]
  split at h
  · rename_i hs
    rw [hs]
    exact isOf_ofLong h
  · rename_i hs
    rw [hs]
    exact isOf_ofDouble h
  · rename_i hs
    rw [hs]
    exact plainOf v h

theorem isOf_ofDate {l : Literal} {v : Value} (h : ofDate l = .ok v) : isOf .date v = true := by
  rw [ofDate] at h
  split at h
  · cases h
  · split at h <;> cases h
    rfl

theorem isOf_booleanOf? {s : String} {v : Value} (h : booleanOf? s = some v) :
    isOf .boolean v = true := by
  rw [booleanOf?] at h
  split at h <;> cases h <;> rfl

/-- A literal becomes a value of the declared type, or of the type that its suffix names. -/
theorem isOf_ofLiteral {l : Literal} {t : AttributeType} {v : Value} (h : ofLiteral l t = .ok v) :
    isOf (l.typeAt t) v = true := by
  cases t with
  | string =>
    cases h
    rfl
  | integer =>
    simp only [ofLiteral] at h
    refine isOf_ofNumber rfl (fun w hw => ?_) h
    obtain ⟨n, _, rfl⟩ := Option.map_eq_some_iff.mp (orRefuse_eq_ok.mp hw)
    rfl
  | long => exact isOf_ofNumber rfl (fun _ => isOf_ofLong) h
  | double => exact isOf_ofNumber rfl (fun _ => isOf_ofDouble) h
  | decimal =>
    simp only [ofLiteral] at h
    refine isOf_ofNumber rfl (fun w hw => ?_) h
    obtain ⟨d, _, rfl⟩ := Option.map_eq_some_iff.mp (orRefuse_eq_ok.mp hw)
    rfl
  | boolean => exact isOf_booleanOf? (orRefuse_eq_ok.mp (unsuffixed_eq_ok.mp h).2)
  | date => exact isOf_ofDate (unsuffixed_eq_ok.mp h).2
  | dateTime =>
    obtain ⟨i, _, rfl⟩ := Option.map_eq_some_iff.mp (orRefuse_eq_ok.mp (unsuffixed_eq_ok.mp h).2)
    rfl
  | enumeration name variants =>
    have read := (unsuffixed_eq_ok.mp h).2
    split at read
    · rename_i declared
      cases read
      exact declared
    · cases read
  | entity name => cases h

theorem isOf_decimalOf? {stored : Json} {v : Value} (h : Record.decimalOf? stored = some v) :
    isOf .decimal v = true := by
  cases stored with
  | number n =>
    obtain ⟨d, _, rfl⟩ := Option.map_eq_some_iff.mp h
    rfl
  | string s =>
    obtain ⟨d, _, rfl⟩ := Option.map_eq_some_iff.mp h
    rfl
  | _ => cases h

/-- A stored field becomes a value of the declared type. -/
theorem isOf_valueOf? {t : AttributeType} {stored : Json} {v : Value}
    (h : Record.valueOf? t stored = some v) : isOf t v = true := by
  cases t with
  | decimal => exact isOf_decimalOf? h
  | enumeration name variants =>
    cases stored <;> try cases h
    simp only [Record.valueOf?] at h
    split at h
    · rename_i declared
      cases h
      exact declared
    · cases h
  | string | double | boolean =>
    cases stored <;> cases h
    rfl
  | entity => cases stored <;> cases h
  | integer | long | date | dateTime =>
    cases stored <;> try cases h
    obtain ⟨x, _, rfl⟩ := Option.map_eq_some_iff.mp h
    rfl

/-- Values of one type can be compared, in order where the type has one. -/
theorem comparable?_of_isOf {t : AttributeType} {r : Relation} {v w : Value}
    (hv : isOf t v = true) (hw : isOf t w = true)
    (ordered : r.isOrdering = true → t.isOrdered = true) : ∃ o, comparable? r v w = some o := by
  cases t <;> cases v <;> try cases hv
  all_goals cases w <;> try cases hw
  case enumeration =>
    have equality : r.isOrdering = false := by
      cases h : r.isOrdering with
      | false => rfl
      | true => cases ordered h
    exact ⟨_, by simp only [comparable?, equality]; rfl⟩
  all_goals exact ⟨_, rfl⟩

end Value

end EntityFilter

namespace EntityFilter

/-- Three-valued truth: what is compared with a missing value is unknown. -/
inductive Truth where
  | true
  | false
  | unknown
deriving DecidableEq, Repr

namespace Truth

def ofBool (b : Bool) : Truth := if b then true else false

def and : Truth → Truth → Truth
  | false, _ | _, false => false
  | true, true => true
  | _, _ => unknown

def or : Truth → Truth → Truth
  | true, _ | _, true => true
  | false, false => false
  | _, _ => unknown

def not : Truth → Truth
  | true => false
  | false => true
  | unknown => unknown

theorem and_comm (a b : Truth) : a.and b = b.and a := by cases a <;> cases b <;> rfl

theorem or_comm (a b : Truth) : a.or b = b.or a := by cases a <;> cases b <;> rfl

theorem or_assoc (a b c : Truth) : (a.or b).or c = a.or (b.or c) := by
  cases a <;> cases b <;> cases c <;> rfl

theorem not_and (a b : Truth) : (a.and b).not = a.not.or b.not := by cases a <;> cases b <;> rfl

theorem not_or (a b : Truth) : (a.or b).not = a.not.and b.not := by cases a <;> cases b <;> rfl

theorem not_not (a : Truth) : a.not.not = a := by cases a <;> rfl

/-- True if a test is true, else unknown if one is. Tests behind a true one are not made, so they
cannot fail. -/
def anyFrom {ε α : Type} (test : α → Except ε Truth) (t : Truth) : List α → Except ε Truth
  | [] => .ok t
  | x :: xs => do
    let t' := t.or (← test x)
    if t' = true then .ok true else anyFrom test t' xs

def any {ε α : Type} (test : α → Except ε Truth) (xs : List α) : Except ε Truth :=
  anyFrom test false xs

end Truth

end EntityFilter

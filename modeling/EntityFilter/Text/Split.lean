namespace EntityFilter.Text

/-- The parts of a text at a separator. There is always a first part, which may be empty. -/
def splitAtAll (separator : Char) : List Char → List Char × List (List Char)
  | [] => ([], [])
  | c :: cs =>
    let (part, parts) := splitAtAll separator cs
    if c = separator then ([], part :: parts) else (c :: part, parts)

def joinParts (separator : Char) : List Char → List (List Char) → List Char
  | part, [] => part
  | part, next :: parts => part ++ separator :: joinParts separator next parts

theorem joinParts_cons (separator c : Char) (part : List Char) (parts : List (List Char)) :
    joinParts separator (c :: part) parts = c :: joinParts separator part parts := by
  cases parts <;> rfl

theorem joinParts_splitAtAll (separator : Char) (cs : List Char) :
    joinParts separator (splitAtAll separator cs).1 (splitAtAll separator cs).2 = cs := by
  induction cs with
  | nil => rfl
  | cons c cs ih =>
    by_cases h : c = separator
    · simp [splitAtAll, h, joinParts, ih]
    · simp [splitAtAll, h, joinParts_cons, ih]

end EntityFilter.Text

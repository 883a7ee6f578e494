namespace EntityFilter.Text

/-- A shape of lexemes looks at the start of a text and says how many characters it takes there, if
it fits at all. Repetition takes as much as it can and never gives anything back. -/
def Shape : Type := List Char → Option Nat

namespace Shape

def one (p : Char → Bool) : Shape
  | [] => none
  | c :: _ => if p c then some 1 else none

def char (c : Char) : Shape := one (· == c)

/-- Any number of characters of a class. -/
def many (p : Char → Bool) : Shape := fun cs => some (cs.takeWhile p).length

def seq (a b : Shape) : Shape := fun cs =>
  (a cs).bind fun n => (b (cs.drop n)).map (n + ·)

instance : Append Shape := ⟨seq⟩

/-- The first shape where it fits, else the second. -/
def or (a b : Shape) : Shape := fun cs => (a cs).or (b cs)

/-- The shape where it fits, else nothing. -/
def opt (a : Shape) : Shape := fun cs => some ((a cs).getD 0)

def many1 (p : Char → Bool) : Shape := one p ++ many p

def times : Nat → (Char → Bool) → Shape
  | 0, _ => fun _ => some 0
  | n + 1, p => one p ++ times n p

/-- The text a shape takes, and what follows it. -/
def split (a : Shape) (cs : List Char) : Option (List Char × List Char) :=
  (a cs).map fun n => (cs.take n, cs.drop n)

theorem split_append {a : Shape} {cs taken rest : List Char} (h : a.split cs = some (taken, rest)) :
    taken ++ rest = cs := by
  simp only [split, Option.map_eq_some_iff, Prod.mk.injEq] at h
  obtain ⟨n, _, rfl, rfl⟩ := h
  exact List.take_append_drop n cs

end Shape

end EntityFilter.Text

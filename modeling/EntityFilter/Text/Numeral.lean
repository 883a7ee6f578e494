namespace EntityFilter.Text

def digitValue (c : Char) : Nat := c.toNat - '0'.toNat

/-- What a digit counts for with `n` digits behind it. -/
def placeValue (n : Nat) : Nat := Nat.pow 10 n

/-- The number that ASCII digits write. -/
def natOfDigits (ds : List Char) : Nat := ds.foldl (fun n c => n * 10 + digitValue c) 0

/-- One or more digits and nothing else. -/
def natOf? (cs : List Char) : Option Nat :=
  if cs ≠ [] ∧ cs.all Char.isDigit then some (natOfDigits cs) else none

/-- Digits after an optional sign. -/
def intOf? : List Char → Option Int
  | '-' :: cs => (natOf? cs).map fun n => -(n : Int)
  | '+' :: cs => (natOf? cs).map fun n => (n : Int)
  | cs => (natOf? cs).map fun n => (n : Int)

/-- Whether a two's complement word of `bits` bits holds a number. -/
def fitsWord (bits : Nat) (n : Int) : Bool :=
  let half : Nat := 1 <<< (bits - 1)
  n < half && -(half : Int) ≤ n

/-- A whole number of at most `bits` bits. -/
def wordOf? (bits : Nat) (cs : List Char) : Option Int := (intOf? cs).filter (fitsWord bits)

/-- At least `width` digits, with zeros in front where the number has fewer. -/
def padded (width n : Nat) : String :=
  let ds := toString n
  "".pushn '0' (width - ds.length) ++ ds

theorem placeValue_succ (n : Nat) : placeValue (n + 1) = placeValue n * 10 := rfl

theorem natOfDigits_append (ds es : List Char) :
    natOfDigits (ds ++ es) = natOfDigits ds * placeValue es.length + natOfDigits es := by
  have shift : ∀ (es : List Char) (n : Nat),
      es.foldl (fun n c => n * 10 + digitValue c) n =
        n * placeValue es.length + es.foldl (fun n c => n * 10 + digitValue c) 0 := by
    intro es
    induction es with
    | nil => simp [placeValue]
    | cons c es ih =>
      intro n
      simp only [List.foldl_cons, List.length_cons, Nat.zero_mul, Nat.zero_add]
      rw [ih (n * 10 + digitValue c), ih (digitValue c), placeValue_succ]
      rw [Nat.add_mul, Nat.mul_assoc, Nat.mul_comm 10, Nat.add_assoc]
  simp only [natOfDigits, List.foldl_append]
  exact shift es _

end EntityFilter.Text

import EntityFilter.Text.Numeral

namespace EntityFilter

/-- An exact decimal: a whole coefficient of at most 96 bits and the number of its digits that stand
after the point. Two decimals are the same number when they compare equal, whatever their scales. -/
structure Decimal where
  negative : Bool
  coefficient : Nat
  scale : Nat
deriving DecidableEq, Repr

namespace Decimal

def coefficientLimit : Nat := 1 <<< 96

def maxScale : Nat := 28

/-- A zero that is written as such has no sign. -/
def ofParts (negative : Bool) (coefficient scale : Nat) : Decimal :=
  ⟨negative && coefficient ≠ 0, coefficient, scale⟩

def signed (x : Decimal) : Int := if x.negative then -x.coefficient else x.coefficient

/-- Both coefficients are brought to one scale, exactly. -/
def order (x y : Decimal) : Ordering :=
  compare (x.signed * Text.placeValue y.scale) (y.signed * Text.placeValue x.scale)

def same (x y : Decimal) : Bool := x.order y == .eq

def text (x : Decimal) : String :=
  let digits := (Text.padded (x.scale + 1) x.coefficient).toList
  let whole := digits.take (digits.length - x.scale)
  let fraction := digits.drop (digits.length - x.scale)
  String.ofList ((if x.negative then ['-'] else []) ++ whole ++
    (if fraction.isEmpty then [] else '.' :: fraction))

/-- A coefficient without its last `k` digits. A half counts as one. -/
def roundedOff (k coefficient : Nat) : Nat :=
  (coefficient + Text.placeValue k / 2) / Text.placeValue k

/-- The number with `d` as the first digit left out. If the coefficient has no room for the unit
that `d` rounds up to, its last digit goes as well. -/
def rounded? (negative : Bool) (coefficient scale d : Nat) : Option Decimal :=
  let n := if 5 ≤ d then coefficient + 1 else coefficient
  if n < coefficientLimit then some (ofParts negative n scale)
  else if scale = 0 then none
  else some (ofParts negative (roundedOff 1 n) (scale - 1))

/-- Coefficients below this take in one digit more within a word of 64 bits. -/
def shortLimit : Nat := 1844674407370954906

/-- Whether the last place is filled, and by a digit that a word of 64 bits was sure to hold. -/
def isShortAndFull (coefficient scale : Nat) : Bool :=
  scale == maxScale && coefficient / 10 < shortLimit

/-- Takes in the digits of a fraction while there is room for them. A `_` behind the last place
closes a short number, so that no digit after it counts; elsewhere a `_` says nothing. -/
def withFraction? (negative : Bool) (coefficient scale : Nat) : List Char → Option Decimal
  | [] => some (ofParts negative coefficient scale)
  | c :: cs =>
    let n := coefficient * 10 + Text.digitValue c
    if c = '_' then
      if isShortAndFull coefficient scale then some (ofParts negative coefficient scale)
      else withFraction? negative coefficient scale cs
    else if scale < maxScale ∧ n < coefficientLimit then withFraction? negative n (scale + 1) cs
    else rounded? negative coefficient scale (Text.digitValue c)

/-- A digit, and then digits that `_` may part. -/
def isDigitRun (cs : List Char) : Bool :=
  cs.head?.any Char.isDigit && cs.all fun c => c.isDigit || c == '_'

/-- Digits may be parted by `_` after the first, and have at most one point. Digits of the fraction
that the coefficient or the scale has no room for are rounded off at the first of them. -/
def ofUnsigned? (negative : Bool) (cs : List Char) : Option Decimal :=
  let whole := cs.takeWhile (· != '.')
  let fraction := (cs.dropWhile (· != '.')).drop 1
  let n := Text.natOfDigits (whole.filter Char.isDigit)
  if isDigitRun (whole ++ fraction) ∧ n < coefficientLimit then
    withFraction? negative n 0 fraction
  else none

/-- A number in plain digits. -/
def ofPlain? : List Char → Option Decimal
  | '-' :: cs => ofUnsigned? true cs
  | '+' :: cs => ofUnsigned? false cs
  | cs => ofUnsigned? false cs

/-- A power, with an optional `+`. -/
def powerOf? : List Char → Option Nat
  | '+' :: cs => Text.natOf? cs
  | cs => Text.natOf? cs

/-- The number divided by `10 ^ n`. Digits that the longer fraction has no place for are rounded
off, and what is rounded to zero keeps its sign. -/
def lowered? (x : Decimal) (n : Nat) : Option Decimal :=
  if maxScale < n then none
  else
    let kept := min x.scale (maxScale - n)
    some { x with coefficient := roundedOff (x.scale - kept) x.coefficient, scale := kept + n }

/-- The number times `10 ^ n`. Past the scale's own digits the result is a whole number. -/
def raised? (x : Decimal) (n : Nat) : Option Decimal :=
  if n ≤ x.scale then some { x with scale := x.scale - n }
  else if maxScale < n then none
  else
    let c := x.coefficient * Text.placeValue (n - x.scale)
    if c < coefficientLimit then some (ofParts x.negative c 0) else none

def isExponentMark (c : Char) : Bool := c == 'e' || c == 'E'

/-- A plain number, rounded by itself, with an exponent. -/
def ofScientific? (cs : List Char) : Option Decimal :=
  match cs.dropWhile (!isExponentMark ·) with
  | [] => none
  | _ :: power =>
    (ofPlain? (cs.takeWhile (!isExponentMark ·))).bind fun base =>
      match power with
      | '-' :: power => (powerOf? power).bind base.lowered?
      | power => (powerOf? power).bind base.raised?

/-- A number in plain digits or with an exponent. -/
def ofText? (cs : List Char) : Option Decimal :=
  if cs.any isExponentMark then ofScientific? cs else ofPlain? cs

theorem ofScientific?_unmarked {cs : List Char} (h : cs.any isExponentMark = false) :
    ofScientific? cs = none := by
  have none : cs.dropWhile (!isExponentMark ·) = [] := by
    induction cs with
    | nil => rfl
    | cons c cs ih =>
      simp only [List.any_cons, Bool.or_eq_false_iff] at h
      rw [List.dropWhile_cons_of_pos (by simp [h.1]), ih h.2]
  rw [ofScientific?, none]

/-- Trying the scientific form as well reads nothing more. -/
theorem ofText?_or_ofScientific? (cs : List Char) :
    (ofText? cs).or (ofScientific? cs) = ofText? cs := by
  unfold ofText?
  split
  · exact Option.or_self
  · rename_i unmarked
    rw [ofScientific?_unmarked (Bool.eq_false_iff.mpr unmarked), Option.or_none]

theorem roundedOff_zero (coefficient : Nat) : roundedOff 0 coefficient = coefficient := by
  simp [roundedOff, Text.placeValue]

theorem order_self (x : Decimal) : x.order x = .eq := by
  simp [order]

end Decimal

end EntityFilter

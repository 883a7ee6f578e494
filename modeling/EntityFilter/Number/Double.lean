import EntityFilter.Text.Numeral

namespace EntityFilter

/-- A binary64 number in integer arithmetic: its sign and its *magnitude*, the 63 bits below the
sign read as one natural number. Magnitudes grow with the numbers they stand for, infinity is the
first one past the finite ones, and all larger ones are no numbers. -/
structure Double where
  negative : Bool
  magnitude : Nat
deriving DecidableEq, Repr

namespace Double

/-- How many magnitudes have one exponent. -/
def perExponent : Nat := 0x10000000000000

def infinity : Nat := 0x7FF * perExponent

def isNaN (x : Double) : Bool := infinity < x.magnitude

def isFinite (x : Double) : Bool := x.magnitude < infinity

/-- The place in the order of all numbers. Both zeros have the same. -/
def key (x : Double) : Int := if x.negative then -x.magnitude else x.magnitude

/-- What is not a number is not ordered. -/
def compare? (x y : Double) : Option Ordering :=
  if x.isNaN || y.isNaN then none else some (compare x.key y.key)

/-- Equality of numbers, not of their bits. -/
def same (x y : Double) : Bool := x.compare? y == some .eq

/-- A finite magnitude `m` stands for `significand m * 2 ^ exponent m`. -/
def significand (m : Nat) : Nat := 
  if m < perExponent then m else perExponent + m % perExponent

def exponent (m : Nat) : Int := (max 1 (m / perExponent) : Nat) - 1075

/-- Numerator and denominator of the number a finite magnitude stands for. -/
def ratio (m : Nat) : Nat × Nat :=
  (significand m <<< (exponent m).toNat, 1 <<< (-exponent m).toNat)

/-- The whole number nearest to a quotient; a half goes to the even neighbour. -/
def halfEven (num den : Nat) : Nat :=
  let q := num / den
  match compare (2 * (num % den)) den with
  | .lt => q
  | .eq => q + q % 2
  | .gt => q + 1

/-- The exponent of the greatest power of two that is not above a positive quotient. -/
def binaryOrder (num den : Nat) : Int :=
  let e : Int := (num.log2 : Int) - den.log2
  if den <<< e.toNat ≤ num <<< (-e).toNat then e else e - 1

/-- The magnitude nearest to a quotient. With `k` the weight of the last bit kept, the rounded
significand is added to its exponent's field, so a carry out of it lands where it belongs. -/
def nearest (num den : Nat) : Nat :=
  if num = 0 then 0 else
    let k := max (binaryOrder num den - 52) (-1074)
    let q := halfEven (num <<< (-k).toNat) (den <<< k.toNat)
    min infinity ((k + 1074).toNat * perExponent + q)

/-- The magnitude nearest to `digits * 10 ^ exp`. Outside the exponents that are told apart below,
the power need not be computed. -/
def nearestDecimal (digits : Nat) (exp : Int) : Nat :=
  let order := (toString digits).length + exp
  if digits = 0 ∨ order < -330 then 0
  else if 310 < order then infinity
  else nearest (digits * Text.placeValue exp.toNat) (Text.placeValue (-exp).toNat)

def ofInt (n : Int) : Double := ⟨n < 0, nearest n.natAbs 1⟩

/-- The product of two finite magnitudes, rounded. -/
def times (a b : Nat) : Nat :=
  nearest ((ratio a).1 * (ratio b).1) ((ratio a).2 * (ratio b).2)

/-- The quotient of two finite magnitudes, rounded. -/
def dividedBy (a b : Nat) : Nat :=
  nearest ((ratio a).1 * (ratio b).2) ((ratio a).2 * (ratio b).1)

/-- The words for what is not finite. -/
def wordMagnitude? (cs : List Char) : Option Nat :=
  match String.ofList (cs.map Char.toLower) with
  | "inf" | "infinity" => some infinity
  | "nan" => some 0x7FF8000000000000
  | _ => none

def exponentOf? : List Char → Option Int
  | [] => some 0
  | c :: cs => if c = 'e' ∨ c = 'E' then Text.intOf? cs else none

/-- Digits with an optional point and exponent. -/
def digitsMagnitude? (cs : List Char) : Option Nat :=
  let (whole, rest) := cs.span Char.isDigit
  let (fraction, rest) :=
    match rest with
    | '.' :: r => r.span Char.isDigit
    | r => ([], r)
  if whole.isEmpty && fraction.isEmpty then none
  else (exponentOf? rest).map fun e =>
    nearestDecimal (Text.natOfDigits (whole ++ fraction)) (e - fraction.length)

def magnitudeOf? (cs : List Char) : Option Nat :=
  (wordMagnitude? cs).or (digitsMagnitude? cs)

def ofText? : List Char → Option Double
  | '-' :: cs => (magnitudeOf? cs).map (⟨true, ·⟩)
  | '+' :: cs => (magnitudeOf? cs).map (⟨false, ·⟩)
  | cs => (magnitudeOf? cs).map (⟨false, ·⟩)

end Double

end EntityFilter

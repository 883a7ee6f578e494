import EntityFilter.Number.Double

namespace EntityFilter

/-- Which of two equally near decimals is written. -/
inductive Tie where
  | up
  | even
deriving DecidableEq, Repr

/-- How the digits of a double are laid out. -/
structure DoubleLayout where
  /-- Numbers below `10 ^ least` have an exponent, as have those from `10 ^ 16` on. -/
  least : Int
  /-- Whether an exponent that is not negative has a sign. -/
  plus : Bool
  tie : Tie

namespace Double

/-- The exponent of the greatest power of ten that is not above a positive quotient. -/
def decimalOrder (num den : Nat) : Int :=
  let atLeast (e : Int) : Bool := 
    den * Text.placeValue e.toNat ≤ num * Text.placeValue (-e).toNat
  let e := (((num.log2 : Int) - den.log2) * 30103).fdiv 100000
  if atLeast (e + 1) then e + 1 else if atLeast e then e else e - 1

/-- A neighbour of a magnitude on the grid of the multiples of `10 ^ p` that reads back as it, the
nearer one first. -/
def onGrid? (tie : Tie) (m : Nat) (p : Int) : Option Nat :=
  let num := (ratio m).1 * Text.placeValue (-p).toNat
  let den := (ratio m).2 * Text.placeValue p.toNat
  let low := num / den
  let preferHigh :=
    match compare (2 * (num % den)) den, tie with
    | .lt, _ => false
    | .gt, _ => true
    | .eq, .up => true
    | .eq, .even => low % 2 == 1
  let (first, second) := if preferHigh then (low + 1, low) else (low, low + 1)
  [first, second].find? fun d => nearestDecimal d p == m

/-- Digits and exponent of a positive magnitude: the fewest digits that read back as it, and of
those the nearest to it. Seventeen digits always read back. -/
def shortest (tie : Tie) (m : Nat) : Nat × Int :=
  let order := decimalOrder (ratio m).1 (ratio m).2
  let tries := (List.range 17).findSome? fun (n : Nat) =>
    (onGrid? tie m (order - n)).map fun d => (d, order - n)
  tries.getD (0, 0)

def dropLastZeros (ds : List Char) : List Char := (ds.reverse.dropWhile (· == '0')).reverse

/-- The digits `ds` with the point after the first `1 + e` places. -/
def placed (ds : List Char) (e : Int) : List Char :=
  if e < 0 then
    '0' :: '.' :: (List.replicate (-e - 1).toNat '0' ++ ds)
  else
    let whole := ds.take (e.toNat + 1)
    let fraction := ds.drop (e.toNat + 1)
    whole ++ List.replicate (e.toNat + 1 - whole.length) '0' ++
      '.' :: (if fraction.isEmpty then ['0'] else fraction)

def withExponent (plus : Bool) (ds : List Char) (e : Int) : List Char :=
  ds.take 1 ++ (if ds.length ≤ 1 then [] else '.' :: ds.drop 1) ++ 'e' ::
    ((if plus && 0 ≤ e then ['+'] else []) ++ (toString e).toList)

def magnitudeText (layout : DoubleLayout) (m : Nat) : List Char :=
  if m = 0 then ['0', '.', '0']
  else
    let (d, p) := shortest layout.tie m
    let all := (toString d).toList
    let ds := dropLastZeros all
    let e := p + all.length - 1
    if layout.least ≤ e ∧ e < 16 then placed ds e else withExponent layout.plus ds e

def text (layout : DoubleLayout) (x : Double) : String :=
  if x.isNaN then "NaN"
  else
    let body := if x.isFinite then magnitudeText layout x.magnitude else ['i', 'n', 'f']
    String.ofList (if x.negative then '-' :: body else body)

end Double

end EntityFilter

import DesignTokens.Number.Decimal

/-!
The shortest decimal that reads back as a given double. The reals that round to a double form an
interval; for 1, 2, … 17 digits the two neighbours of the double on that decimal grid are tested
against it in whole numbers, and the first grid with a hit gives the digits.
-/

namespace DesignTokens.Number

/-- Which of two equally near decimals is taken. -/
inductive Tie where
  | up
  | even
  deriving DecidableEq, Repr

/-- The reals that round to a double, over a common denominator. The ends belong to it exactly if
`closed` holds. -/
structure Interval where
  low : Nat
  value : Nat
  high : Nat
  denominator : Nat
  closed : Bool
  deriving DecidableEq, Repr

/-- The gap below a power of two is half as wide as the gap above it. -/
def Binary.interval (number : Binary) : Interval :=
  let quarter := number.exponent - 2
  let (unit, denominator) := scaled 1 quarter
  let below := if number.coefficient = Nat.pow 2 52 && number.exponent ≠ -1074 then 1 else 2
  { low := (4 * number.coefficient - below) * unit
    value := 4 * number.coefficient * unit
    high := (4 * number.coefficient + 2) * unit
    denominator := denominator
    closed := number.coefficient % 2 = 0 }

def digitCount (value : Nat) : Nat :=
  (Nat.toDigits 10 value).length

def magnitude (numerator denominator : Nat) : Int :=
  if denominator ≤ numerator then (digitCount (numerator / denominator) : Int)
  else 1 - (digitCount ((denominator - 1) / numerator) : Int)

def Interval.onGrid (interval : Interval) (exponent : Int) : Interval :=
  if 0 ≤ exponent then
    { interval with denominator := interval.denominator * Nat.pow 10 exponent.toNat }
  else
    let factor := Nat.pow 10 (-exponent).toNat
    { interval with
      low := interval.low * factor
      value := interval.value * factor
      high := interval.high * factor }

def Interval.contains (interval : Interval) (point : Nat) : Bool :=
  let scaledPoint := point * interval.denominator
  if interval.closed then interval.low ≤ scaledPoint && scaledPoint ≤ interval.high
  else interval.low < scaledPoint && scaledPoint < interval.high

def Interval.choose (interval : Interval) (tie : Tie) : Option Nat :=
  let below := interval.value / interval.denominator
  let above := below + 1
  let twice := 2 * interval.value
  let middle := (below + above) * interval.denominator
  match interval.contains below, interval.contains above with
  | false, false => none
  | true, false => some below
  | false, true => some above
  | true, true =>
    if twice < middle then some below
    else if middle < twice then some above
    else match tie with
      | .up => some above
      | .even => if below % 2 = 0 then some below else some above

/-- Tries grids of `digits`, `digits + 1`, … digits, `remaining` of them. -/
def searchGrid (interval : Interval) (tie : Tie) (top : Int) :
    (remaining digits : Nat) → Option (Nat × Int)
  | 0, _ => none
  | remaining + 1, digits =>
    let exponent := top - digits
    match (interval.onGrid exponent).choose tie with
    | some point => some (point, exponent)
    | none => searchGrid interval tie top remaining (digits + 1)

def stripZeros : (limit coefficient : Nat) → Int → Nat × Int
  | 0, coefficient, exponent => (coefficient, exponent)
  | limit + 1, coefficient, exponent =>
    if coefficient % 10 = 0 then stripZeros limit (coefficient / 10) (exponent + 1)
    else (coefficient, exponent)

/-- The decimal with the fewest digits that reads back as the number; of two with equally many
digits the nearer one. -/
def shortest (tie : Tie) (number : Binary) : Decimal :=
  if number.coefficient = 0 then ⟨number.negative, 0, 0⟩
  else
    let interval := number.interval
    let top := magnitude interval.value interval.denominator
    let (coefficient, exponent) := (searchGrid interval tie top 17 1).getD (0, 0)
    let (coefficient, exponent) := stripZeros 18 coefficient exponent
    ⟨number.negative, coefficient, exponent⟩

end DesignTokens.Number

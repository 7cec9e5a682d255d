import DesignTokens.Number.Shortest

/-!
How a double is written. The digits are the shortest ones; a layout says which exponents are
written out as zeros, what a whole number ends with, and which way a tie between digits goes.
-/

namespace DesignTokens.Number

structure Layout where
  /-- Where positional notation ends, as the exponents of the first digit; without it every
  number is positional. -/
  positional : Option (Int × Int)
  /-- A whole number in positional notation ends with a point and a zero. -/
  pointZero : Bool
  tie : Tie
  deriving DecidableEq, Repr

def Layout.positionalText (layout : Layout) (digits : List Char) (exponent : Int) : List Char :=
  if 0 ≤ exponent then
    digits ++ List.replicate exponent.toNat '0' ++ (if layout.pointZero then ['.', '0'] else [])
  else
    let places := (-exponent).toNat
    if places < digits.length then
      digits.take (digits.length - places) ++ '.' :: digits.drop (digits.length - places)
    else
      '0' :: '.' :: List.replicate (places - digits.length) '0' ++ digits

def scientificText (digits : List Char) (leading : Int) : List Char :=
  let fraction := if digits.length ≤ 1 then [] else '.' :: digits.drop 1
  let sign := if 0 ≤ leading then '+' else '-'
  digits.take 1 ++ fraction ++ 'e' :: sign :: Nat.toDigits 10 leading.natAbs

def Layout.decimalText (layout : Layout) (number : Decimal) : List Char :=
  let digits := Nat.toDigits 10 number.coefficient
  let leading := number.exponent + digits.length - 1
  let sign := if number.negative then ['-'] else []
  match layout.positional with
  | some (least, greatest) =>
    if number.coefficient = 0 || (least ≤ leading && leading ≤ greatest) then
      sign ++ layout.positionalText digits number.exponent
    else
      sign ++ scientificText digits leading
  | none => sign ++ layout.positionalText digits number.exponent

def Layout.text (layout : Layout) (x : Float) : List Char :=
  match Binary.ofFloat x with
  | some number => layout.decimalText (shortest layout.tie number)
  | none =>
    if x.isNaN then ['N', 'a', 'N']
    else if x < 0.0 then ['-', 'i', 'n', 'f']
    else ['i', 'n', 'f']

/-- Numbers in messages and style sheets have no exponent, a tie goes up, and whole numbers have
no point. -/
def plainLayout : Layout := ⟨none, false, .up⟩

def plainText (x : Float) : String :=
  String.ofList (plainLayout.text x)

def cssText (x : Float) : String :=
  if x == 0.0 then "0" else plainText x

end DesignTokens.Number

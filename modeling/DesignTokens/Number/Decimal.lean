import DesignTokens.Number.Binary

/-!
Decimal numbers and their text. Reading keeps every digit; only the last step, to the nearest
double, rounds.
-/

namespace DesignTokens.Number

structure Decimal where
  negative : Bool
  coefficient : Nat
  exponent : Int
  deriving DecidableEq, Repr

def readDigits (digits : List Char) : Nat :=
  digits.foldl (fun value digit => 10 * value + (digit.toNat - 0x30)) 0

def takeSign : List Char → Bool × List Char
  | '+' :: rest => (false, rest)
  | '-' :: rest => (true, rest)
  | text => (false, text)

namespace Decimal

def ofDigits (negative : Bool) (whole fraction : List Char) (exponent : Int) : Decimal :=
  ⟨negative, readDigits (whole ++ fraction), exponent - fraction.length⟩

def readExponent (text : List Char) : Option Int :=
  let (negative, digits) := takeSign text
  if digits.isEmpty || !digits.all Char.isDigit then none
  else if negative then some (-(readDigits digits : Int))
  else some (readDigits digits)

def read (text : List Char) : Option Decimal :=
  let (negative, unsigned) := takeSign text
  let whole := unsigned.takeWhile Char.isDigit
  let afterWhole := unsigned.dropWhile Char.isDigit
  let (fraction, afterFraction) := match afterWhole with
    | '.' :: rest => (rest.takeWhile Char.isDigit, rest.dropWhile Char.isDigit)
    | _ => ([], afterWhole)
  if whole.isEmpty && fraction.isEmpty then none
  else match afterFraction with
    | [] => some (ofDigits negative whole fraction 0)
    | mark :: exponent =>
      if mark = 'e' || mark = 'E' then
        (readExponent exponent).map (ofDigits negative whole fraction)
      else
        none

/-- The double nearest to the number, ties to even. Exponents far outside the range of a double
are answered without forming the power of ten. -/
def toFloat (number : Decimal) : Float :=
  if number.coefficient = 0 then
    Binary.assemble number.negative 0
  else if 310 < number.exponent then
    Binary.assemble number.negative (2047 * Nat.pow 2 52)
  else if number.exponent + (number.coefficient.log2 / 3 + 1 : Nat) < -330 then
    Binary.assemble number.negative 0
  else if 0 ≤ number.exponent then
    Binary.ofQuotient number.negative (number.coefficient * Nat.pow 10 number.exponent.toNat) 1
  else
    Binary.ofQuotient number.negative number.coefficient (Nat.pow 10 (-number.exponent).toNat)

end Decimal

/-- Reads a double: a number, or one of the words for infinity and for what is no number, in any
case and with an optional sign. -/
def readFloat (text : String) : Option Float :=
  match Decimal.read text.toList with
  | some number => some number.toFloat
  | none =>
    let (negative, word) := takeSign text.toList
    let word := String.ofList (word.map Char.toLower)
    if word = "inf" || word = "infinity" then some (Binary.assemble negative (2047 * Nat.pow 2 52))
    else if word = "nan" then some (0.0 / 0.0)
    else none

end DesignTokens.Number

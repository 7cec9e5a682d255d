import DesignTokens.Css.Character
import DesignTokens.Number.Numeral

/-!
Numbers of TOML. Underscores may stand between digits. Integers have 64 bits with a sign; a
positive number too large for a double is refused, a negative one is minus infinity.
-/

namespace DesignTokens.Toml

open DesignTokens.Number

def digits? (isDigit : Char → Bool) : List Char → Option (List Char × List Char)
  | [] => none
  | c :: rest =>
    if !isDigit c then none
    else
      match rest with
      | '_' :: after => (digits? isDigit after).map fun (others, text) => (c :: others, text)
      | next :: after =>
        if isDigit next then
          (digits? isDigit (next :: after)).map fun (others, text) => (c :: others, text)
        else
          some ([c], next :: after)
      | [] => some ([c], [])

def wholePart? : List Char → Option (List Char × List Char)
  | '0' :: rest => some (['0'], rest)
  | text => digits? Char.isDigit text

def powerPart? : List Char → Option (Option (Bool × List Char) × List Char)
  | [] => some (none, [])
  | mark :: rest =>
    if mark = 'e' || mark = 'E' then do
      let (negative, unsigned) := takeSign rest
      let (digits, after) ← digits? Char.isDigit unsigned
      return (some (negative, digits), after)
    else
      some (none, mark :: rest)

def numeral? (text : List Char) : Option (Numeral × List Char) := do
  let (negative, unsigned) := takeSign text
  let (whole, afterWhole) ← wholePart? unsigned
  let (fraction, afterFraction) ← match afterWhole with
    | '.' :: rest => digits? Char.isDigit rest
    | rest => some ([], rest)
  let (exponent, after) ← powerPart? afterFraction
  if fraction.isEmpty && exponent.isNone then none
  else return (⟨negative, whole, fraction, exponent⟩, after)

def isPositiveInfinity (x : Float) : Bool :=
  !x.isFinite && 0.0 < x

def specialFloat? (text : List Char) : Option (Float × List Char) :=
  let (negative, unsigned) := takeSign text
  match unsigned with
  | 'i' :: 'n' :: 'f' :: rest => some (if negative then -1.0 / 0.0 else 1.0 / 0.0, rest)
  | 'n' :: 'a' :: 'n' :: rest => some (0.0 / 0.0, rest)
  | _ => none

def float? (text : List Char) : Option (Float × List Char) :=
  match numeral? text with
  | some (numeral, rest) =>
    if isPositiveInfinity numeral.value then none else some (numeral.value, rest)
  | none => specialFloat? text

def readBase (base : Nat) (digits : List Char) : Nat :=
  digits.foldl (fun value digit => base * value + Css.hexValue digit) 0

def integerLimit : Nat := Nat.pow 2 63

def basedInteger? (base : Nat) (isDigit : Char → Bool) (text : List Char) :
    Option (Int × List Char) := do
  let (digits, rest) ← digits? isDigit text
  let value := readBase base digits
  if value < integerLimit then return ((value : Int), rest) else none

def decimalInteger? (text : List Char) : Option (Int × List Char) := do
  let (negative, unsigned) := takeSign text
  let (digits, rest) ← wholePart? unsigned
  let value := readDigits digits
  if negative then
    if value ≤ integerLimit then return (-(value : Int), rest) else none
  else if value < integerLimit then return ((value : Int), rest)
  else none

def isOctalDigit (c : Char) : Bool :=
  '0' ≤ c && c ≤ '7'

def isBinaryDigit (c : Char) : Bool :=
  c = '0' || c = '1'

def integer? : List Char → Option (Int × List Char)
  | '0' :: 'x' :: rest => basedInteger? 16 Css.isHexDigit rest
  | '0' :: 'o' :: rest => basedInteger? 8 isOctalDigit rest
  | '0' :: 'b' :: rest => basedInteger? 2 isBinaryDigit rest
  | text => decimalInteger? text

def integerFloat (value : Int) : Float :=
  if value = 0 then 0.0 else Binary.ofQuotient (value < 0) value.natAbs 1

end DesignTokens.Toml

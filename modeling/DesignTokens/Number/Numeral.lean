import DesignTokens.Number.Decimal

/-!
Numbers as they are written: digits before and after a point and a power of ten.
-/

namespace DesignTokens.Number

/-- The exponent, if there is one, is a sign (true for minus) and digits. -/
structure Numeral where
  negative : Bool
  whole : List Char
  fraction : List Char
  exponent : Option (Bool × List Char)
  deriving DecidableEq, Repr

namespace Numeral

def power (numeral : Numeral) : Int :=
  match numeral.exponent with
  | none => 0
  | some (true, digits) => -(readDigits digits : Int)
  | some (false, digits) => readDigits digits

def value (numeral : Numeral) : Float :=
  (Decimal.ofDigits numeral.negative numeral.whole numeral.fraction numeral.power).toFloat

end Numeral

end DesignTokens.Number

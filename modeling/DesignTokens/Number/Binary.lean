/-!
Exact binary numbers. A finite double is a signed coefficient times a power of two; rounding,
remainders and narrowing are done on that form in whole numbers, so no step of them is rounded
except the one that is meant to be.
-/

namespace DesignTokens.Number

/-- The number `±coefficient * 2 ^ exponent`. -/
structure Binary where
  negative : Bool
  coefficient : Nat
  exponent : Int
  deriving DecidableEq, Repr

/-- A binary floating-point format: how many bits a coefficient has, and the least exponent. -/
structure Format where
  precision : Nat
  leastExponent : Int
  deriving DecidableEq, Repr

def double : Format := ⟨53, -1074⟩

def single : Format := ⟨24, -149⟩

def Format.ceiling (format : Format) : Int :=
  3 - format.leastExponent - format.precision

def roundEven (numerator denominator : Nat) : Nat :=
  let quotient := numerator / denominator
  let twice := 2 * (numerator % denominator)
  if twice < denominator then quotient
  else if denominator < twice then quotient + 1
  else if quotient % 2 = 0 then quotient
  else quotient + 1

def roundUp (numerator denominator : Nat) : Nat :=
  (2 * numerator + denominator) / (2 * denominator)

def scaled (value : Nat) (exponent : Int) : Nat × Nat :=
  if 0 ≤ exponent then (value * Nat.pow 2 exponent.toNat, 1) else (value, Nat.pow 2 (-exponent).toNat)

/-- The exponent that gives a quotient the coefficient of a format's full width, and not less than
the format's least exponent. -/
def Format.exponentFor (format : Format) (numerator denominator : Nat) : Int :=
  let estimate := (numerator.log2 : Int) - (denominator.log2 : Int) - (format.precision : Int)
  let (shifted, divisor) := scaled numerator (-estimate)
  let exponent := if Nat.pow 2 format.precision ≤ shifted / (divisor * denominator) then estimate + 1
    else estimate
  max exponent format.leastExponent

/-- The number of the format nearest to a positive quotient, ties to even, without regard to the
format's largest number. -/
def Format.nearest (format : Format) (numerator denominator : Nat) : Nat × Int :=
  let exponent := format.exponentFor numerator denominator
  let (shifted, divisor) := scaled numerator (-exponent)
  (roundEven shifted (divisor * denominator), exponent)

namespace Binary

/-- The double with the given sign whose other bits are `magnitude`; from the bits of infinity
on, infinity. -/
def assemble (negative : Bool) (magnitude : Nat) : Float :=
  let sign := if negative then Nat.pow 2 63 else 0
  Float.ofBits (UInt64.ofNat (sign + min magnitude (2047 * Nat.pow 2 52)))

def ofQuotient (negative : Bool) (numerator denominator : Nat) : Float :=
  if numerator = 0 then
    assemble negative 0
  else
    let (coefficient, exponent) := double.nearest numerator denominator
    assemble negative ((exponent + 1074).toNat * Nat.pow 2 52 + coefficient)

def ofFloat (x : Float) : Option Binary :=
  let bits := x.toBits.toNat
  let negative := Nat.pow 2 63 ≤ bits
  let field : Nat := bits / Nat.pow 2 52 % Nat.pow 2 11
  let fraction : Nat := bits % Nat.pow 2 52
  if field = 2047 then none
  else if field = 0 then some ⟨negative, fraction, -1074⟩
  else some ⟨negative, Nat.pow 2 52 + fraction, (field : Int) - 1075⟩

def toFloat (number : Binary) : Float :=
  let (numerator, denominator) := scaled number.coefficient number.exponent
  ofQuotient number.negative numerator denominator

end Binary

/-- The whole number nearest to a double, a half going away from zero. The sign is kept, so a
small negative number gives minus zero. -/
def roundWhole (x : Float) : Float :=
  match Binary.ofFloat x with
  | none => x
  | some number =>
    let (numerator, denominator) := scaled number.coefficient number.exponent
    Binary.ofQuotient number.negative (roundUp numerator denominator) 1

def roundPlaces (x factor : Float) : Float :=
  roundWhole (x * factor) / factor

def remainder (x y : Float) : Float :=
  match Binary.ofFloat x, Binary.ofFloat y with
  | some left, some right =>
    if right.coefficient = 0 then 0.0 / 0.0
    else
      let exponent := min left.exponent right.exponent
      let dividend := left.coefficient * Nat.pow 2 (left.exponent - exponent).toNat
      let divisor := right.coefficient * Nat.pow 2 (right.exponent - exponent).toNat
      Binary.toFloat ⟨left.negative, dividend % divisor, exponent⟩
  | some _, none => if y.isNaN then y else x
  | none, _ => 0.0 / 0.0

def modulo (x y : Float) : Float :=
  let rest := remainder x y
  if rest < 0.0 then rest + y else rest

/-- The value moved into the range from 0 to 1; what is no number stays so. -/
def clampUnit (x : Float) : Float :=
  if x < 0.0 then 0.0 else if 1.0 < x then 1.0 else x

def narrow (x : Float) : Float :=
  match Binary.ofFloat x with
  | none => x
  | some number =>
    if number.coefficient = 0 then x
    else
      let (numerator, denominator) := scaled number.coefficient number.exponent
      let (coefficient, exponent) := single.nearest numerator denominator
      if single.ceiling ≤ exponent + coefficient.log2 then
        Binary.assemble number.negative (2047 * Nat.pow 2 52)
      else
        Binary.toFloat ⟨number.negative, coefficient, exponent⟩

end DesignTokens.Number

import DesignTokens.Number.Numeral
import DesignTokens.Number.Layout

/-!
Numbers of JSON: their grammar, and the double that each stands for. The digits are gathered into a
significand of 64 bits; digits for which it has no room only count as places. The significand and
the power of ten are then joined by floating-point steps, so the result may differ from the nearest
double in its last place. A number too large for a double is refused.
-/

namespace DesignTokens.Json

open DesignTokens.Number

def wholeDigits : List Char → Option (List Char × List Char)
  | '0' :: rest => if rest.head?.any Char.isDigit then none else some (['0'], rest)
  | text =>
    let digits := text.takeWhile Char.isDigit
    if digits.isEmpty then none else some (digits, text.dropWhile Char.isDigit)

def fractionDigits : List Char → Option (List Char × List Char)
  | '.' :: rest =>
    let digits := rest.takeWhile Char.isDigit
    if digits.isEmpty then none else some (digits, rest.dropWhile Char.isDigit)
  | text => some ([], text)

def exponentDigits : List Char → Option (Option (Bool × List Char) × List Char)
  | [] => some (none, [])
  | mark :: rest =>
    if mark = 'e' || mark = 'E' then
      let (negative, unsigned) := takeSign rest
      let digits := unsigned.takeWhile Char.isDigit
      if digits.isEmpty then none
      else some (some (negative, digits), unsigned.dropWhile Char.isDigit)
    else
      some (none, mark :: rest)

def minusSign : List Char → Bool × List Char
  | '-' :: rest => (true, rest)
  | text => (false, text)

def numeral? (text : List Char) : Option (Numeral × List Char) := do
  let (negative, unsigned) := minusSign text
  let (whole, afterWhole) ← wholeDigits unsigned
  let (fraction, afterFraction) ← fractionDigits afterWhole
  let (exponent, rest) ← exponentDigits afterFraction
  return (⟨negative, whole, fraction, exponent⟩, rest)

def significandLimit : Nat := Nat.pow 2 64

def gatherDigits (significand : Nat) : List Char → Nat × Nat
  | [] => (significand, 0)
  | digit :: rest =>
    let next := 10 * significand + (digit.toNat - 0x30)
    if next < significandLimit then gatherDigits next rest
    else (significand, rest.length + 1)

/-- The exponents of ten for which one multiplication or division is made. -/
def greatestPower : Nat := 308

def powerOfTen (exponent : Nat) : Float :=
  (Decimal.mk false 1 exponent).toFloat

/-- Divides by a power of ten, in steps of the greatest one; `limit` steps bring every significand
to zero. -/
def scaleDown (limit : Nat) (x : Float) (exponent : Nat) : Float :=
  match limit with
  | 0 => x
  | limit + 1 =>
    if exponent ≤ greatestPower then x / powerOfTen exponent
    else scaleDown limit (x / powerOfTen greatestPower) (exponent - greatestPower)

def scaleUp (x : Float) (exponent : Nat) : Option Float :=
  if x == 0.0 then some x
  else if greatestPower < exponent then none
  else
    let result := x * powerOfTen exponent
    if result.isFinite then some result else none

def joinParts (significand : Nat) (exponent : Int) : Option Float :=
  let x := Binary.ofQuotient false significand 1
  if exponent < 0 then some (scaleDown 4 x exponent.natAbs) else scaleUp x exponent.natAbs

def exponentLimit : Nat := Nat.pow 2 31

def numeralValue? (numeral : Numeral) : Option Float := do
  let (whole, places) := gatherDigits 0 numeral.whole
  let (significand, leftOver) := gatherDigits whole numeral.fraction
  let start : Int := places - (numeral.fraction.length - leftOver : Nat)
  let size ← match numeral.exponent with
    | none => joinParts significand start
    | some (negative, digits) =>
      if exponentLimit ≤ readDigits digits then
        if negative || significand = 0 then some 0.0 else none
      else
        joinParts significand (start + numeral.power)
  return if numeral.negative then -size else size

/-- Plain notation from `1e-5` up to but not including `1e16`; whole numbers end with `.0`. -/
def jsonLayout : Layout := ⟨some (-5, 15), true, .even⟩

def floatText (x : Float) : List Char :=
  if x.isFinite then jsonLayout.text x else ['n', 'u', 'l', 'l']

theorem dropWhile_digits_length {text : List Char}
    (found : (text.takeWhile Char.isDigit).isEmpty = false) :
    (text.dropWhile Char.isDigit).length < text.length := by
  cases text with
  | nil => simp at found
  | cons c tail =>
    by_cases digit : c.isDigit
    · have shorter := (List.dropWhile_suffix (l := tail) Char.isDigit).length_le
      simp only [List.dropWhile_cons, digit, if_true, List.length_cons]
      omega
    · simp [digit] at found

theorem wholeDigits_length {text digits rest : List Char}
    (read : wholeDigits text = some (digits, rest)) : rest.length < text.length := by
  unfold wholeDigits at read
  split at read
  · split at read
    · contradiction
    · simp only [Option.some.injEq, Prod.mk.injEq] at read
      simp [← read.2]
  · dsimp only at read
    split at read
    · contradiction
    · rename_i found
      simp only [Option.some.injEq, Prod.mk.injEq] at read
      rw [← read.2]
      exact dropWhile_digits_length (by simpa using found)

theorem fractionDigits_length {text digits rest : List Char}
    (read : fractionDigits text = some (digits, rest)) : rest.length ≤ text.length := by
  unfold fractionDigits at read
  split at read
  · rename_i tail
    dsimp only at read
    split at read
    · contradiction
    · simp only [Option.some.injEq, Prod.mk.injEq] at read
      obtain ⟨_, rfl⟩ := read
      exact ((List.dropWhile_suffix _).trans (List.suffix_cons _ _)).length_le
  · simp only [Option.some.injEq, Prod.mk.injEq] at read
    simp [read.2]

theorem exponentDigits_length {text rest : List Char} {exponent : Option (Bool × List Char)}
    (read : exponentDigits text = some (exponent, rest)) : rest.length ≤ text.length := by
  have signed (unsigned : List Char) : (takeSign unsigned).2.length ≤ unsigned.length := by
    unfold takeSign
    split <;> simp
  unfold exponentDigits at read
  split at read
  · simp_all
  · rename_i mark tail
    split at read
    · dsimp only at read
      split at read
      · contradiction
      · simp only [Option.some.injEq, Prod.mk.injEq] at read
        obtain ⟨_, rfl⟩ := read
        have dropped := (List.dropWhile_suffix (l := (takeSign tail).2) Char.isDigit).length_le
        have bounded := signed tail
        simp only [List.length_cons]
        omega
    · simp only [Option.some.injEq, Prod.mk.injEq] at read
      simp [← read.2]

theorem numeral?_length {text rest : List Char} {numeral : Numeral}
    (read : numeral? text = some (numeral, rest)) : rest.length < text.length := by
  simp only [numeral?, Option.bind_eq_bind, Option.bind_eq_some_iff] at read
  obtain ⟨⟨whole, afterWhole⟩, wholeRead, ⟨fraction, afterFraction⟩, fractionRead,
    ⟨exponent, last⟩, exponentRead, result⟩ := read
  simp only [Option.pure_def, Option.some.injEq, Prod.mk.injEq] at result
  obtain ⟨_, rfl⟩ := result
  have first := wholeDigits_length wholeRead
  have second := fractionDigits_length fractionRead
  have third := exponentDigits_length exponentRead
  have unsigned : (minusSign text).2.length ≤ text.length := by
    unfold minusSign
    split <;> simp
  simp only at second third
  omega

end DesignTokens.Json

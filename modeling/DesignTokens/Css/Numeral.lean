import DesignTokens.Number.Numeral

/-!
The number part of a CSS token. Its exact value is the double nearest to the written decimal; the
stored value is what a tokenizer with single precision keeps, and serves only where the written
digits cannot be told from the unit.
-/

namespace DesignTokens.Css

open DesignTokens.Number

def accumulateWhole (digits : List Char) : Float :=
  digits.foldl (fun value digit => value * 10.0 + Float.ofNat (digit.toNat - 0x30)) 0.0

/-- Digits after the point: each is weighted with a factor that shrinks by a tenth. -/
def accumulateFraction (digits : List Char) : Float :=
  (digits.foldl (fun (value, factor) digit =>
    (value + Float.ofNat (digit.toNat - 0x30) * factor, factor * 0.1)) (0.0, 0.1)).1

def storedValue (numeral : Numeral) : Float :=
  let sign : Float := if numeral.negative then -1.0 else 1.0
  let base := sign * (accumulateWhole numeral.whole + accumulateFraction numeral.fraction)
  let scaledBase := match numeral.exponent with
    | none => base
    | some _ => base * (Decimal.mk false 1 numeral.power).toFloat
  narrow scaledBase

def startsDigits : List Char → Bool
  | '.' :: c :: _ => c.isDigit
  | c :: _ => c.isDigit
  | [] => false

def startsNumber : List Char → Bool
  | '+' :: rest => startsDigits rest
  | '-' :: rest => startsDigits rest
  | text => startsDigits text

def fraction : List Char → List Char × List Char
  | '.' :: rest =>
    if (rest.takeWhile Char.isDigit).isEmpty then ([], '.' :: rest)
    else (rest.takeWhile Char.isDigit, rest.dropWhile Char.isDigit)
  | text => ([], text)

def exponent : List Char → Option (Bool × List Char) × List Char
  | c :: rest =>
    if c = 'e' || c = 'E' then
      let signed := Number.takeSign rest
      let digits := signed.2.takeWhile Char.isDigit
      if digits.isEmpty then (none, c :: rest)
      else (some (signed.1, digits), signed.2.dropWhile Char.isDigit)
    else
      (none, c :: rest)
  | [] => (none, [])

def numeral (text : List Char) : Numeral × List Char :=
  let signed := Number.takeSign text
  let whole := signed.2.takeWhile Char.isDigit
  let fractional := fraction (signed.2.dropWhile Char.isDigit)
  let powered := exponent fractional.2
  (⟨signed.1, whole, fractional.1, powered.1⟩, powered.2)

theorem takeSign_suffix (text : List Char) : (Number.takeSign text).2 <:+ text := by
  unfold Number.takeSign
  split
  · exact List.suffix_cons _ _
  · exact List.suffix_cons _ _
  · exact List.suffix_refl _

theorem fraction_suffix (text : List Char) : (fraction text).2 <:+ text := by
  unfold fraction
  split
  · split
    · exact List.suffix_refl _
    · exact (List.dropWhile_suffix _).trans (List.suffix_cons _ _)
  · exact List.suffix_refl _

theorem exponent_suffix (text : List Char) : (exponent text).2 <:+ text := by
  unfold exponent
  split
  · split
    · dsimp only
      split
      · exact List.suffix_refl _
      · exact (List.dropWhile_suffix _).trans
          ((takeSign_suffix _).trans (List.suffix_cons _ _))
    · exact List.suffix_refl _
  · exact List.suffix_refl _

theorem numeral_suffix (text : List Char) : (numeral text).2 <:+ text :=
  (exponent_suffix _).trans ((fraction_suffix _).trans
    ((List.dropWhile_suffix _).trans (takeSign_suffix text)))

theorem numeral_length_le (text : List Char) :
    (numeral text).2.length ≤ ((Number.takeSign text).2.dropWhile Char.isDigit).length :=
  ((exponent_suffix _).trans (fraction_suffix _)).length_le

theorem fraction_point {d : Char} (rest : List Char) (digit : d.isDigit = true) :
    fraction ('.' :: d :: rest) = (d :: rest.takeWhile Char.isDigit, rest.dropWhile Char.isDigit) := by
  simp [fraction, digit]

theorem numeral_length_lt_of_startsDigits {text : List Char}
    (starts : startsDigits text = true) (unsigned : (Number.takeSign text).2 = text) :
    (numeral text).2.length < text.length := by
  have dropped := numeral_length_le text
  rw [unsigned] at dropped
  unfold startsDigits at starts
  split at starts
  · rename_i d rest
    have point : ('.' : Char).isDigit = false := rfl
    have tail := (List.dropWhile_suffix (l := rest) Char.isDigit).length_le
    have powered := (exponent_suffix (rest.dropWhile Char.isDigit)).length_le
    simp only [numeral, unsigned, List.dropWhile_cons, point, Bool.false_eq_true, if_false,
      fraction_point rest starts, List.length_cons]
    omega
  · rename_i c rest _
    have tail := (List.dropWhile_suffix (l := rest) Char.isDigit).length_le
    simp only [List.dropWhile_cons, starts, if_true] at dropped
    simp only [List.length_cons]
    omega
  · contradiction

theorem numeral_length_lt_of_sign {c : Char} (rest : List Char) (signed : c = '+' ∨ c = '-') :
    (numeral (c :: rest)).2.length < (c :: rest).length := by
  have dropped := numeral_length_le (c :: rest)
  have unsigned : (Number.takeSign (c :: rest)).2 = rest := by rcases signed with rfl | rfl <;> rfl
  have tail := (List.dropWhile_suffix (l := rest) Char.isDigit).length_le
  rw [unsigned] at dropped
  simp only [List.length_cons]
  omega

theorem numeral_length_lt {text : List Char} (starts : startsNumber text = true) :
    (numeral text).2.length < text.length := by
  unfold startsNumber at starts
  split at starts
  · exact numeral_length_lt_of_sign _ (Or.inl rfl)
  · exact numeral_length_lt_of_sign _ (Or.inr rfl)
  · refine numeral_length_lt_of_startsDigits starts ?_
    unfold Number.takeSign
    split <;> simp_all

end DesignTokens.Css

import DesignTokens.Css.Numeral
import Mathlib.Data.List.TakeWhile

/-!
How numbers are spelled. A sign, digits, a point with digits after it and a power of ten make up a
number, and a reader takes the longest beginning of a text that is spelled so. The decimal that it
is read as is the one that the spelling names.
-/

namespace DesignTokens.Css

open DesignTokens.Number

def Digits (text : List Char) : Prop :=
  ∀ c ∈ text, c.isDigit = true

inductive SpellsSign : List Char → Bool → Prop where
  | unsigned : SpellsSign [] false
  | plus : SpellsSign ['+'] false
  | minus : SpellsSign ['-'] true

inductive SpellsFraction : List Char → List Char → Prop where
  | whole : SpellsFraction [] []
  | point {fraction : List Char} (digits : Digits fraction) (filled : fraction ≠ []) :
      SpellsFraction ('.' :: fraction) fraction

inductive SpellsPower : List Char → Option (Bool × List Char) → Prop where
  | plain : SpellsPower [] none
  | power {letter : Char} {sign exponent : List Char} {negative : Bool}
      (lettered : letter = 'e' ∨ letter = 'E') (signed : SpellsSign sign negative)
      (digits : Digits exponent) (filled : exponent ≠ []) :
      SpellsPower (letter :: (sign ++ exponent)) (some (negative, exponent))

/-- The text of a number. Before the point or after it there is at least one digit. -/
inductive Spells : List Char → Numeral → Prop where
  | number {sign whole point fraction power : List Char} {negative : Bool}
      {exponent : Option (Bool × List Char)} (signed : SpellsSign sign negative)
      (digits : Digits whole) (fractional : SpellsFraction point fraction)
      (filled : whole ≠ [] ∨ fraction ≠ []) (raised : SpellsPower power exponent) :
      Spells (sign ++ (whole ++ (point ++ power))) ⟨negative, whole, fraction, exponent⟩

def EndsDigits (text : List Char) : Prop :=
  ∀ c, text.head? = some c → c.isDigit = false ∧ c ≠ '.'

theorem endsDigits_nil : EndsDigits [] :=
  fun _ head => nomatch head

def Parted (text : List Char) : Prop :=
  ∀ c, text.head? = some c → c.isDigit = false ∧ c ≠ '.' ∧ c ≠ 'e' ∧ c ≠ 'E'

/-! The parts of a number and what may stand after them. -/

section Parts

variable {sign whole point fraction power exponent : List Char} {negative : Bool}

theorem Digits.takeWhile (digits : Digits whole) (rest : List Char) :
    (whole ++ rest).takeWhile Char.isDigit = whole ++ rest.takeWhile Char.isDigit :=
  List.takeWhile_append_of_pos digits

theorem Digits.dropWhile (digits : Digits whole) (rest : List Char) :
    (whole ++ rest).dropWhile Char.isDigit = rest.dropWhile Char.isDigit :=
  List.dropWhile_append_of_pos digits

theorem takeSign_digits {text : List Char} (starts : startsDigits text = true) :
    takeSign text = (false, text) := by
  unfold takeSign
  split
  · contradiction
  · contradiction
  · rfl

theorem SpellsSign.takeSign (signed : SpellsSign sign negative) {rest : List Char}
    (starts : startsDigits rest = true) : Number.takeSign (sign ++ rest) = (negative, rest) := by
  cases signed with
  | unsigned => exact takeSign_digits starts
  | plus => rfl
  | minus => rfl

theorem SpellsSign.startsNumber (signed : SpellsSign sign negative) {rest : List Char}
    (starts : startsDigits rest = true) : Css.startsNumber (sign ++ rest) = true := by
  cases signed with
  | unsigned =>
    rw [List.nil_append]
    unfold Css.startsNumber
    split
    · contradiction
    · contradiction
    · exact starts
  | plus => exact starts
  | minus => exact starts

theorem startsDigits_append (digits : Digits whole) (filled : whole ≠ []) (rest : List Char) :
    startsDigits (whole ++ rest) = true := by
  cases whole with
  | nil => contradiction
  | cons c whole =>
    have digit : c.isDigit = true := digits c List.mem_cons_self
    have apart : c ≠ '.' := by
      intro point
      rw [point] at digit
      contradiction
    rw [List.cons_append, startsDigits.eq_2]
    · exact digit
    · intro d tail same
      exact absurd same apart

theorem startsDigits_spelled (digits : Digits whole) (fractional : SpellsFraction point fraction)
    (filled : whole ≠ [] ∨ fraction ≠ []) (rest : List Char) :
    startsDigits (whole ++ (point ++ rest)) = true := by
  cases fractional with
  | whole =>
    apply startsDigits_append digits
    exact filled.resolve_right (fun absent => absent rfl)
  | point after some_digit =>
    cases whole with
    | nil =>
      obtain ⟨d, tail, rfl⟩ := List.exists_cons_of_ne_nil some_digit
      exact after d List.mem_cons_self
    | cons c whole => exact startsDigits_append digits (List.cons_ne_nil c whole) _

theorem fraction_point_digits (digits : Digits fraction) (filled : fraction ≠ [])
    (rest : List Char) :
    Css.fraction ('.' :: (fraction ++ rest)) =
      (fraction ++ rest.takeWhile Char.isDigit, rest.dropWhile Char.isDigit) := by
  have some_digit : (fraction ++ rest.takeWhile Char.isDigit).isEmpty = false := by
    cases fraction with
    | nil => contradiction
    | cons c fraction => rfl
  rw [Css.fraction, digits.takeWhile, digits.dropWhile, some_digit, if_neg Bool.false_ne_true]

theorem exponent_letter_digits {letter : Char} (lettered : letter = 'e' ∨ letter = 'E')
    (signed : SpellsSign sign negative) (digits : Digits exponent) (filled : exponent ≠ [])
    (rest : List Char) :
    Css.exponent (letter :: (sign ++ (exponent ++ rest))) =
      (some (negative, exponent ++ rest.takeWhile Char.isDigit),
        rest.dropWhile Char.isDigit) := by
  have some_digit : (exponent ++ rest.takeWhile Char.isDigit).isEmpty = false := by
    cases exponent with
    | nil => contradiction
    | cons c exponent => rfl
  have split := signed.takeSign (startsDigits_append digits filled rest)
  rw [Css.exponent, if_pos (by simpa using lettered)]
  dsimp only
  rw [split, digits.takeWhile, digits.dropWhile, some_digit, if_neg Bool.false_ne_true]

theorem letter_parts {letter : Char} (lettered : letter = 'e' ∨ letter = 'E') (rest : List Char) :
    (letter :: rest).takeWhile Char.isDigit = [] ∧
      (letter :: rest).dropWhile Char.isDigit = letter :: rest ∧
      Css.fraction (letter :: rest) = ([], letter :: rest) := by
  rcases lettered with rfl | rfl
  · exact ⟨rfl, rfl, rfl⟩
  · exact ⟨rfl, rfl, rfl⟩

end Parts

namespace EndsDigits

variable {rest : List Char} (ends : EndsDigits rest)
include ends

theorem takeWhile : rest.takeWhile Char.isDigit = [] := by
  cases rest with
  | nil => rfl
  | cons c rest => exact List.takeWhile_cons_of_neg (by simp [(ends c rfl).1])

theorem dropWhile : rest.dropWhile Char.isDigit = rest := by
  cases rest with
  | nil => rfl
  | cons c rest => exact List.dropWhile_cons_of_neg (by simp [(ends c rfl).1])

theorem fraction : Css.fraction rest = ([], rest) := by
  cases rest with
  | nil => rfl
  | cons c rest =>
    rw [Css.fraction.eq_2]
    intro tail same
    exact absurd (List.cons.inj same).1 (ends c rfl).2

end EndsDigits

theorem Parted.endsDigits {rest : List Char} (parted : Parted rest) : EndsDigits rest :=
  fun c head => ⟨(parted c head).1, (parted c head).2.1⟩

theorem Parted.exponent {rest : List Char} (parted : Parted rest) :
    Css.exponent rest = (none, rest) := by
  cases rest with
  | nil => rfl
  | cons c rest => rw [Css.exponent, if_neg (by simp [(parted c rfl).2.2])]

/-! What is read where a number is spelled. -/

theorem numeral_signed {sign rest : List Char} {negative : Bool}
    (signed : SpellsSign sign negative) (starts : startsDigits rest = true) :
    numeral (sign ++ rest) =
      (⟨negative, rest.takeWhile Char.isDigit, (fraction (rest.dropWhile Char.isDigit)).1,
          (exponent (fraction (rest.dropWhile Char.isDigit)).2).1⟩,
        (exponent (fraction (rest.dropWhile Char.isDigit)).2).2) := by
  rw [numeral, signed.takeSign starts]

theorem startsNumber_spelled {written : List Char} {number : Numeral}
    (spelled : Spells written number) (rest : List Char) :
    startsNumber (written ++ rest) = true := by
  cases spelled with
  | number signed digits fractional filled raised =>
    simp only [List.append_assoc]
    exact signed.startsNumber (startsDigits_spelled digits fractional filled _)

/-- A reader goes on at least to the end of any number that the text starts with, and no further
than to a text that no number goes on with. -/
theorem numeral_spelled {written : List Char} {number : Numeral} (spelled : Spells written number)
    (rest : List Char) :
    (numeral (written ++ rest)).2 <:+ rest ∧
      (Parted rest → numeral (written ++ rest) = (number, rest)) := by
  have dropped : rest.dropWhile Char.isDigit <:+ rest := List.dropWhile_suffix _
  cases spelled with
  | number signed digits fractional filled raised =>
    simp only [List.append_assoc]
    rw [numeral_signed signed (startsDigits_spelled digits fractional filled _), digits.takeWhile,
      digits.dropWhile]
    dsimp only
    cases fractional with
    | whole =>
      cases raised with
      | plain =>
        constructor
        · exact (exponent_suffix _).trans ((fraction_suffix _).trans dropped)
        · intro parted
          have ends := parted.endsDigits
          simp [ends.takeWhile, ends.dropWhile, ends.fraction, parted.exponent]
      | power lettered powerSigned powerDigits powerFilled =>
        have parts := letter_parts lettered
        simp only [List.nil_append, List.cons_append, List.append_assoc, parts, List.append_nil]
        rw [exponent_letter_digits lettered powerSigned powerDigits powerFilled]
        constructor
        · exact dropped
        · intro parted
          rw [parted.endsDigits.takeWhile, parted.endsDigits.dropWhile, List.append_nil]
    | point after some_digit =>
      have point : ('.' : Char).isDigit = false := rfl
      rw [List.cons_append, List.takeWhile_cons_of_neg (by simp [point]), List.append_nil,
        List.dropWhile_cons_of_neg (by simp [point]), fraction_point_digits after some_digit]
      dsimp only
      cases raised with
      | plain =>
        constructor
        · exact (exponent_suffix _).trans dropped
        · intro parted
          have ends := parted.endsDigits
          simp [ends.takeWhile, ends.dropWhile, parted.exponent]
      | power lettered powerSigned powerDigits powerFilled =>
        have parts := letter_parts lettered
        simp only [List.cons_append, List.append_assoc, parts, List.append_nil]
        rw [exponent_letter_digits lettered powerSigned powerDigits powerFilled]
        constructor
        · exact dropped
        · intro parted
          rw [parted.endsDigits.takeWhile, parted.endsDigits.dropWhile, List.append_nil]

/-! What is read is spelled. -/

theorem takeSign_spells (text : List Char) :
    ∃ sign, SpellsSign sign (takeSign text).1 ∧ text = sign ++ (takeSign text).2 := by
  unfold takeSign
  split
  · exact ⟨['+'], .plus, rfl⟩
  · exact ⟨['-'], .minus, rfl⟩
  · exact ⟨[], .unsigned, rfl⟩

theorem digits_takeWhile (text : List Char) : Digits (text.takeWhile Char.isDigit) :=
  fun _ member => List.mem_takeWhile_imp member

theorem fraction_spells (text : List Char) :
    ∃ point, SpellsFraction point (fraction text).1 ∧ text = point ++ (fraction text).2 := by
  unfold fraction
  split
  · rename_i rest
    split
    · exact ⟨[], .whole, rfl⟩
    · rename_i filled
      refine ⟨'.' :: rest.takeWhile Char.isDigit, .point (digits_takeWhile rest) ?_, ?_⟩
      · intro absent
        rw [absent] at filled
        contradiction
      · rw [List.cons_append, List.takeWhile_append_dropWhile]
  · exact ⟨[], .whole, rfl⟩

theorem exponent_spells (text : List Char) :
    ∃ power, SpellsPower power (exponent text).1 ∧ text = power ++ (exponent text).2 := by
  unfold exponent
  split
  · rename_i letter rest
    obtain ⟨sign, signed, split⟩ := takeSign_spells rest
    split
    · rename_i lettered
      dsimp only
      split
      · exact ⟨[], .plain, rfl⟩
      · rename_i filled
        refine ⟨letter :: (sign ++ (takeSign rest).2.takeWhile Char.isDigit),
          .power (by simpa using lettered) signed (digits_takeWhile _) ?_, ?_⟩
        · intro absent
          rw [absent] at filled
          contradiction
        · rw [List.cons_append, List.append_assoc, List.takeWhile_append_dropWhile, ← split]
    · exact ⟨[], .plain, rfl⟩
  · exact ⟨[], .plain, rfl⟩

theorem startsDigits_after_sign {text : List Char} (starts : startsNumber text = true) :
    startsDigits (takeSign text).2 = true := by
  cases text with
  | nil => exact starts
  | cons c rest =>
    by_cases plus : c = '+'
    · subst plus
      exact starts
    · by_cases minus : c = '-'
      · subst minus
        exact starts
      · have unsigned : takeSign (c :: rest) = (false, c :: rest) := by
          simp [takeSign, plus, minus]
        rw [unsigned]
        simpa [startsNumber, plus, minus] using starts

/-- Digits before the point are missing only where a point with digits after it comes first. -/
theorem filled_of_startsDigits {text : List Char} (starts : startsDigits text = true) :
    text.takeWhile Char.isDigit ≠ [] ∨ (fraction (text.dropWhile Char.isDigit)).1 ≠ [] := by
  unfold startsDigits at starts
  split at starts
  · rename_i d rest
    right
    have point : ('.' : Char).isDigit = false := rfl
    rw [List.dropWhile_cons_of_neg (by simp [point]), fraction_point rest starts]
    exact List.cons_ne_nil _ _
  · left
    rw [List.takeWhile_cons_of_pos starts]
    exact List.cons_ne_nil _ _
  · contradiction

theorem numeral_spells {text : List Char} (starts : startsNumber text = true) :
    ∃ written, Spells written (numeral text).1 ∧ text = written ++ (numeral text).2 := by
  obtain ⟨sign, signed, one⟩ := takeSign_spells text
  obtain ⟨point, fractional, two⟩ :=
    fraction_spells ((takeSign text).2.dropWhile Char.isDigit)
  obtain ⟨power, raised, three⟩ :=
    exponent_spells (fraction ((takeSign text).2.dropWhile Char.isDigit)).2
  have after : (takeSign text).2.dropWhile Char.isDigit = point ++ (power ++ (numeral text).2) :=
    two.trans (congrArg (point ++ ·) three)
  refine ⟨_, .number signed (digits_takeWhile _) fractional
    (filled_of_startsDigits (startsDigits_after_sign starts)) raised, ?_⟩
  simp only [List.append_assoc]
  rw [← after, List.takeWhile_append_dropWhile]
  exact one

/-- The number that a text starts with: the longest beginning that is spelled as one. -/
structure NumberPart (text written : List Char) (number : Numeral) : Prop where
  spelled : Spells written number
  begins : written <+: text
  longest : ∀ other value, Spells other value → other <+: text → other.length ≤ written.length

/-- A text starts with one number at most. -/
theorem NumberPart.unique {text written other : List Char} {number value : Numeral}
    (part : NumberPart text written number) (again : NumberPart text other value) :
    written = other := by
  have shorter := again.longest written number part.spelled part.begins
  have longer := part.longest other value again.spelled again.begins
  exact (List.prefix_of_prefix_length_le part.begins again.begins shorter).eq_of_length
    (Nat.le_antisymm shorter longer)

theorem numberPart_of_numeral {text written rest : List Char} {number : Numeral}
    (spelled : Spells written number) (read : numeral (written ++ rest) = (number, rest))
    (begins : written <+: text) (within : text <+: written ++ rest) :
    NumberPart text written number := by
  refine ⟨spelled, begins, fun other value spells starts => ?_⟩
  obtain ⟨tail, whole⟩ := starts.trans within
  have left := (numeral_spelled spells tail).1.length_le
  rw [whole, read] at left
  have length := congrArg List.length whole
  rw [List.length_append, List.length_append] at length
  dsimp only at left
  omega

theorem numberPart_of_read {written rest : List Char} {number : Numeral}
    (starts : startsNumber (written ++ rest) = true)
    (read : numeral (written ++ rest) = (number, rest)) :
    NumberPart (written ++ rest) written number := by
  obtain ⟨whole, spelled, split⟩ := numeral_spells starts
  rw [read] at spelled split
  rw [← List.append_cancel_right split] at spelled
  exact numberPart_of_numeral spelled read (List.prefix_append written rest) (List.prefix_refl _)

/-! The decimal of a number. -/

def decimalOf (number : Numeral) : Decimal :=
  .ofDigits number.negative number.whole number.fraction number.power

theorem digits_all {digits : List Char} (inside : Digits digits) :
    digits.all Char.isDigit = true :=
  List.all_eq_true.2 inside

theorem readExponent_spelled {sign exponent : List Char} {negative : Bool}
    (signed : SpellsSign sign negative) (digits : Digits exponent) (filled : exponent ≠ []) :
    Decimal.readExponent (sign ++ exponent) =
      some (if negative then -(readDigits exponent : Int) else readDigits exponent) := by
  have starts := startsDigits_append digits filled []
  rw [List.append_nil] at starts
  have some_digit : exponent.isEmpty = false := by
    cases exponent with
    | nil => contradiction
    | cons c exponent => rfl
  rw [Decimal.readExponent, signed.takeSign starts]
  simp only [some_digit, digits_all digits]
  cases negative with
  | true => rfl
  | false => rfl

def readPower : List Char → Option Int
  | [] => some 0
  | letter :: exponent =>
    if letter = 'e' ∨ letter = 'E' then Decimal.readExponent exponent else none

section Read

variable {sign whole point fraction : List Char} {negative : Bool}
  (signed : SpellsSign sign negative) (digits : Digits whole)
  (fractional : SpellsFraction point fraction) (filled : whole ≠ [] ∨ fraction ≠ [])
include signed digits fractional filled

theorem read_digits {rest : List Char} (apart : EndsDigits rest) :
    Decimal.read (sign ++ (whole ++ (point ++ rest))) =
      (readPower rest).map (Decimal.ofDigits negative whole fraction) := by
  rw [Decimal.read, signed.takeSign (startsDigits_spelled digits fractional filled rest)]
  dsimp only
  rw [digits.takeWhile, digits.dropWhile]
  cases fractional with
  | whole =>
    have some_digit : whole ≠ [] := filled.resolve_right (fun absent => absent rfl)
    rw [List.nil_append, apart.takeWhile, apart.dropWhile, List.append_nil]
    cases rest with
    | nil => simp [some_digit, readPower]
    | cons c rest =>
      split
      · rename_i same
        exact absurd (List.cons.inj same).1 (apart c rfl).2
      · by_cases letter : c = 'e' ∨ c = 'E'
        · simp [some_digit, readPower, letter]
        · simp [some_digit, readPower, letter]
  | point after some_digit =>
    have point : ('.' : Char).isDigit = false := rfl
    rw [List.cons_append, List.takeWhile_cons_of_neg (by simp [point]), List.append_nil,
      List.dropWhile_cons_of_neg (by simp [point])]
    simp only [after.takeWhile, after.dropWhile, apart.takeWhile, apart.dropWhile, List.append_nil]
    cases rest with
    | nil => simp [some_digit, readPower]
    | cons c rest =>
      by_cases letter : c = 'e' ∨ c = 'E'
      · simp [some_digit, readPower, letter]
      · simp [some_digit, readPower, letter]

end Read

theorem SpellsPower.apart {power : List Char} {exponent : Option (Bool × List Char)}
    (raised : SpellsPower power exponent) {rest : List Char} (apart : EndsDigits rest) :
    EndsDigits (power ++ rest) := by
  cases raised with
  | plain => exact apart
  | power lettered signed digits filled =>
    intro c head
    have same := Option.some.inj head
    rw [← same]
    rcases lettered with rfl | rfl
    · exact ⟨rfl, by decide⟩
    · exact ⟨rfl, by decide⟩

theorem read_spelled {written : List Char} {number : Numeral} (spelled : Spells written number) :
    Decimal.read written = some (decimalOf number) := by
  cases spelled with
  | number signed digits fractional filled raised =>
    have apart := raised.apart endsDigits_nil
    rw [List.append_nil] at apart
    rw [read_digits signed digits fractional filled apart]
    cases raised with
    | plain => rfl
    | @power _ _ _ negative lettered powerSigned powerDigits powerFilled =>
      rw [readPower, if_pos lettered, readExponent_spelled powerSigned powerDigits powerFilled]
      cases negative with
      | true => rfl
      | false => rfl

theorem readExponent_spells {text : List Char} {power : Int}
    (read : Decimal.readExponent text = some power) :
    ∃ sign exponent negative, SpellsSign sign negative ∧ Digits exponent ∧ exponent ≠ [] ∧
      text = sign ++ exponent := by
  obtain ⟨sign, signed, split⟩ := takeSign_spells text
  rw [Decimal.readExponent] at read
  dsimp only at read
  split at read
  · contradiction
  · rename_i digits
    simp only [Bool.or_eq_true, not_or, List.isEmpty_iff, Bool.not_eq_true, Bool.not_eq_false']
      at digits
    exact ⟨sign, _, _, signed, List.all_eq_true.1 digits.2, digits.1, split⟩

/-- Together with a part of the text after it a number is not read as a decimal. -/
theorem NumberPart.read_overrun {written more suffix : List Char} {number : Numeral}
    (part : NumberPart (written ++ suffix) written number) (within : more <+: suffix)
    (apart : EndsDigits more) (filled : more ≠ []) :
    Decimal.read (written ++ more) = none := by
  obtain ⟨c, tail, rfl⟩ := List.exists_cons_of_ne_nil filled
  have shorter : ∀ value, ¬ Spells (written ++ c :: tail) value := by
    intro value longer
    have bound := part.longest _ value longer ((List.prefix_append_right_inj written).2 within)
    rw [List.length_append, List.length_cons] at bound
    omega
  have spelled := part.spelled
  cases spelled with
  | number signed digits fractional some_digit raised =>
    have heads := raised.apart apart
    simp only [List.append_assoc] at shorter ⊢
    rw [read_digits signed digits fractional some_digit heads, Option.map_eq_none_iff]
    cases raised with
    | plain =>
      rw [List.nil_append, readPower]
      split
      · rename_i lettered
        cases found : Decimal.readExponent tail with
        | none => rfl
        | some power =>
          obtain ⟨sign, exponent, negative, powerSigned, powerDigits, powerFilled, rfl⟩ :=
            readExponent_spells found
          have raised : SpellsPower (c :: (sign ++ exponent)) (some (negative, exponent)) :=
            .power lettered powerSigned powerDigits powerFilled
          exact absurd (.number signed digits fractional some_digit raised) (shorter _)
      · rfl
    | @power _ powerSign exponent _ lettered powerSigned powerDigits powerFilled =>
      have split := powerSigned.takeSign (startsDigits_append powerDigits powerFilled (c :: tail))
      have mixed : (exponent ++ c :: tail).all Char.isDigit = false := by
        simp [(apart c rfl).1]
      rw [List.cons_append, List.append_assoc, readPower, if_pos lettered, Decimal.readExponent,
        split]
      simp [mixed]

end DesignTokens.Css

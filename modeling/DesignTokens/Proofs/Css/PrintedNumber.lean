import DesignTokens.Number.Layout
import DesignTokens.Proofs.Css.NumberPart
import Mathlib.Data.Nat.Basic

/-!
Numbers as they are printed. A finite double is printed as digits with at most one point among them,
so a style sheet spells a number there. An infinity and what is no number are printed as words.
-/

namespace DesignTokens.Css

open DesignTokens.Number
open Float.Model (UnpackedFloat)

theorem exponentField_eq (x : Float) :
    (@UnpackedFloat.unpackExponent Float.Model.Format.binary64 x.toBits.toBitVec).toNat =
      x.toBits.toNat / Nat.pow 2 52 % Nat.pow 2 11 := by
  simp [UnpackedFloat.unpackExponent, BitVec.extractLsb_toNat, Nat.shiftRight_eq_div_pow]

theorem isFinite_eq (x : Float) : x.isFinite = (Binary.ofFloat x).isSome := by
  have full : @UnpackedFloat.unpackExponent Float.Model.Format.binary64
      x.toBits.toBitVec = -1#11 ↔ x.toBits.toNat / Nat.pow 2 52 % Nat.pow 2 11 = 2047 := by
    rw [← exponentField_eq, ← BitVec.toNat_inj]
    rfl
  have status : x.isFinite =
      (UnpackedFloat.unpack Float.Model.Format.binary64 x.toBits.toBitVec).isFinite := rfl
  rw [status, Binary.ofFloat]
  delta UnpackedFloat.unpack
  dsimp only
  by_cases top : x.toBits.toNat / Nat.pow 2 52 % Nat.pow 2 11 = 2047
  · rw [if_pos (full.2 top), if_pos top]
    split
    · rfl
    · rfl
  · rw [if_neg (fun bits => top (full.1 bits)), if_neg top, apply_ite UnpackedFloat.isFinite,
      apply_dite UnpackedFloat.isFinite, apply_ite Option.isSome]
    change (if _ then if _ : _ then true else true else true) = if _ then true else true
    rw [ite_self, dite_eq_ite, ite_self, ite_self]

theorem beq_of_not_finite {x y : Float} (infinite : x.isFinite = false)
    (finite : y.isFinite = true) : (x == y) = false := by
  have left : x.toModel.unpack.isFinite = false := infinite
  have right : y.toModel.unpack.isFinite = true := finite
  have same : (x == y) = x.toModel.unpack.beq y.toModel.unpack := rfl
  rw [same]
  cases one : x.toModel.unpack with
  | infinity sign =>
    cases other : y.toModel.unpack with
    | infinity =>
      rw [other] at right
      contradiction
    | notANumber =>
      rw [other] at right
      contradiction
    | zero => cases sign <;> rfl
    | finite => cases sign <;> rfl
  | notANumber => rfl
  | zero =>
    rw [one] at left
    contradiction
  | finite =>
    rw [one] at left
    contradiction

theorem digits_toDigits (value : Nat) : Digits (Nat.toDigits 10 value) :=
  fun _ member => Nat.isDigit_of_mem_toDigits (by decide) (by decide) member

theorem digits_replicate (count : Nat) : Digits (List.replicate count '0') := by
  intro c member
  rw [List.eq_of_mem_replicate member]
  rfl

theorem Digits.append {left right : List Char} (first : Digits left) (second : Digits right) :
    Digits (left ++ right) :=
  List.forall_mem_append.2 ⟨first, second⟩

theorem digits_zero : Digits ['0'] :=
  digits_replicate 1

section Printed

variable {sign : List Char} {negative : Bool} (signed : SpellsSign sign negative)
  {digits : List Char} (inside : Digits digits) (filled : digits ≠ [])
include signed inside filled

theorem spells_whole : Spells (sign ++ digits) ⟨negative, digits, [], none⟩ := by
  have spelled := Spells.number signed inside .whole (Or.inl filled) .plain
  simpa using spelled

theorem spells_point {fraction : List Char} (after : Digits fraction) (some_digit : fraction ≠ []) :
    Spells (sign ++ (digits ++ '.' :: fraction)) ⟨negative, digits, fraction, none⟩ := by
  have spelled := Spells.number signed inside (.point after some_digit) (Or.inl filled) .plain
  simpa using spelled

theorem positional_spells (exponent : Int) :
    ∃ number, Spells (sign ++ plainLayout.positionalText digits exponent) number := by
  unfold Layout.positionalText
  split
  · have zeros := inside.append (digits_replicate exponent.toNat)
    have more : digits ++ List.replicate exponent.toNat '0' ≠ [] := by simp [filled]
    exact ⟨_, by simpa [plainLayout] using spells_whole signed zeros more⟩
  · dsimp only
    split
    · rename_i below shorter
      have before : digits.take (digits.length - (-exponent).toNat) ≠ [] := by
        simp [filled]
        omega
      have after : digits.drop (digits.length - (-exponent).toNat) ≠ [] := by
        simp
        omega
      exact ⟨_, spells_point signed (fun c member => inside c (List.mem_of_mem_take member)) before
        (fun c member => inside c (List.mem_of_mem_drop member)) after⟩
    · have fraction := (digits_replicate ((-exponent).toNat - digits.length)).append inside
      have some_digit : List.replicate ((-exponent).toNat - digits.length) '0' ++ digits ≠ [] := by
        simp [filled]
      exact ⟨_, spells_point signed digits_zero (List.cons_ne_nil _ _) fraction some_digit⟩

end Printed

theorem spellsSign_negative (negative : Bool) :
    SpellsSign (if negative then ['-'] else []) negative := by
  cases negative with
  | false => exact .unsigned
  | true => exact .minus

/-- A finite double is printed as a number. -/
theorem printed_spells {x : Float} (finite : x.isFinite = true) :
    ∃ number, Spells (cssText x).toList number := by
  unfold cssText
  split
  · exact ⟨_, spells_whole .unsigned digits_zero (List.cons_ne_nil _ _)⟩
  · rw [isFinite_eq] at finite
    obtain ⟨number, found⟩ := Option.isSome_iff_exists.1 finite
    rw [plainText, String.toList_ofList, Layout.text, found]
    exact positional_spells (spellsSign_negative _) (digits_toDigits _) Nat.toDigits_ne_nil _

theorem printed_word {x : Float} (infinite : x.isFinite = false) :
    cssText x ∈ ["NaN", "-inf", "inf"] := by
  have zero : (0.0 : Float).isFinite = true := by decide +kernel
  have none_found : Binary.ofFloat x = none := by
    rw [isFinite_eq] at infinite
    simpa using infinite
  rw [cssText, beq_of_not_finite infinite zero, if_neg Bool.false_ne_true, plainText, Layout.text,
    none_found]
  dsimp only
  split
  · decide
  · split
    · decide
    · decide

end DesignTokens.Css

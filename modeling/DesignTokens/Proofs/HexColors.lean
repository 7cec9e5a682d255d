import DesignTokens.Proofs.Text.Cutting
import DesignTokens.Value.Color
import Mathlib.Data.List.Basic

/-!
Hexadecimal colors. A text is read as a color exactly if it is three, four, six or eight hexadecimal
digits. The color is written with the same digits, each twice if it was in the short form, in lower
case and without the opacity of an opaque color; and what is written is read as the same color.
-/

namespace DesignTokens

open DesignTokens.Css DesignTokens.Number DesignTokens.Text

namespace Color

def hexCharacters : List Char :=
  "0123456789abcdefABCDEF".toList

def afterNumberSign (text : String) : List Char :=
  match text.toList with
  | '#' :: rest => rest
  | digits => digits

/-- The digits of a hexadecimal color. -/
structure HexForm (digits : List Char) : Prop where
  hex : ∀ c ∈ digits, c ∈ hexCharacters
  count : digits.length ∈ [3, 4, 6, 8]

def fullDigits (digits : List Char) : List Char :=
  if digits.length ≤ 4 then digits.flatMap fun digit => [digit, digit] else digits

/-- The digits in which a color is written: all pairs in lower case, and the fourth only if it is
not that of an opaque color. -/
def writtenDigits (digits : List Char) : List Char :=
  let full := (fullDigits digits).map Char.toLower
  if full.drop 6 = ['f', 'f'] then full.take 6 else full

def spelledOut : Color → Color
  | .rgb red green blue alpha => .rgb red green blue (some (alpha.getD 1.0))
  | .hsl hue saturation lightness alpha => .hsl hue saturation lightness (some (alpha.getD 1.0))

theorem swatch_spelledOut (color : Color) : color.spelledOut.swatch = color.swatch := by
  cases color with
  | rgb red green blue alpha => rfl
  | hsl hue saturation lightness alpha => rfl

theorem isOpaque_spelledOut (color : Color) : color.spelledOut.isOpaque = color.isOpaque := by
  have whole : decide ((1.0 : Float) ≤ 1.0) = true := by decide +kernel
  cases color with
  | rgb red green blue alpha =>
    cases alpha with
    | none => exact whole
    | some value => rfl
  | hsl hue saturation lightness alpha =>
    cases alpha with
    | none => exact whole
    | some value => rfl

/-! Hexadecimal digits. -/

theorem isHexDigit_of_mem {c : Char} (hex : c ∈ hexCharacters) : isHexDigit c = true := by
  have each : hexCharacters.all isHexDigit = true := by decide +kernel
  exact List.all_eq_true.1 each c hex

theorem mem_of_isHexDigit {c : Char} (hex : isHexDigit c = true) : c ∈ hexCharacters := by
  have each : ∀ code < 103, isHexDigit (Char.ofNat code) = true →
      Char.ofNat code ∈ hexCharacters := by
    decide +kernel
  have bound : c.toNat < 103 := by
    simp only [isHexDigit, Char.isDigit, Bool.or_eq_true, Bool.and_eq_true,
      decide_eq_true_eq] at hex
    rcases hex with (digit | small) | capital
    · exact Nat.lt_of_le_of_lt (UInt32.le_iff_toNat_le.1 digit.2) (by decide)
    · exact Nat.lt_of_le_of_lt (UInt32.le_iff_toNat_le.1 small.2) (by decide)
    · exact Nat.lt_of_le_of_lt (UInt32.le_iff_toNat_le.1 capital.2) (by decide)
  have member := each c.toNat bound
  rw [Char.ofNat_toNat] at member
  exact member hex

theorem hexValue_spec {c : Char} (hex : c ∈ hexCharacters) :
    hexValue c < 16 ∧ hexDigit (hexValue c) = c.toLower ∧ c.utf8Size = 1 := by
  have each : hexCharacters.all (fun c =>
      hexValue c < 16 ∧ hexDigit (hexValue c) = c.toLower ∧ c.utf8Size = 1) = true := by
    decide +kernel
  exact of_decide_eq_true (List.all_eq_true.1 each c hex)

theorem hexDigit_spec : ∀ digit < 16,
    hexDigit digit ∈ hexCharacters ∧ hexValue (hexDigit digit) = digit := by
  decide +kernel

/-! Bytes and their pairs of digits. -/

theorem hexPair_paired {high low : Char} (first : high ∈ hexCharacters)
    (second : low ∈ hexCharacters) :
    hexPair (16 * hexValue high + hexValue low) = [high.toLower, low.toLower] := by
  obtain ⟨_, upper, _⟩ := hexValue_spec first
  obtain ⟨small, lower, _⟩ := hexValue_spec second
  have quotient : (16 * hexValue high + hexValue low) / 16 = hexValue high := by omega
  have remainder : (16 * hexValue high + hexValue low) % 16 = hexValue low := by omega
  rw [hexPair, quotient, remainder, upper, lower]

/-- Bytes that are written by digits take those digits again, in lower case. -/
theorem pairs_pairedBytes {digits : List Char} (hex : ∀ c ∈ digits, c ∈ hexCharacters)
    (even : digits.length % 2 = 0) :
    (pairedBytes digits).flatMap hexPair = digits.map Char.toLower := by
  induction digits using pairedBytes.induct with
  | case1 high low rest ih =>
    simp only [List.forall_mem_cons] at hex
    rw [List.length_cons, List.length_cons] at even
    rw [pairedBytes, List.flatMap_cons, hexPair_paired hex.1 hex.2.1, ih hex.2.2 (by omega)]
    rfl
  | case2 digits short =>
    cases digits with
    | nil => rfl
    | cons high rest =>
      cases rest with
      | nil => contradiction
      | cons low rest => exact absurd rfl (short high low rest)

theorem pairedBytes_pairs {bytes : List Nat} (small : ∀ byte ∈ bytes, byte < 256) :
    pairedBytes (bytes.flatMap hexPair) = bytes := by
  induction bytes with
  | nil => rfl
  | cons byte rest ih =>
    rw [List.forall_mem_cons] at small
    have high := hexDigit_spec (byte / 16) (by omega)
    have low := hexDigit_spec (byte % 16) (by omega)
    have halves : 16 * (byte / 16) + byte % 16 = byte := by omega
    change pairedBytes (hexDigit (byte / 16) :: hexDigit (byte % 16) :: rest.flatMap hexPair) = _
    rw [pairedBytes, high.2, low.2, halves, ih small.2]

theorem pairs_hex {bytes : List Nat} (small : ∀ byte ∈ bytes, byte < 256) :
    ∀ c ∈ bytes.flatMap hexPair, c ∈ hexCharacters := by
  intro c member
  obtain ⟨byte, inside, digit⟩ := List.mem_flatMap.1 member
  have bound := small byte inside
  simp only [hexPair, List.mem_cons, List.not_mem_nil, or_false] at digit
  rcases digit with high | low
  · rw [high]
    exact (hexDigit_spec (byte / 16) (by omega)).1
  · rw [low]
    exact (hexDigit_spec (byte % 16) (by omega)).1

theorem length_pairs (bytes : List Nat) : (bytes.flatMap hexPair).length = 2 * bytes.length := by
  induction bytes with
  | nil => rfl
  | cons byte rest ih =>
    rw [List.flatMap_cons, List.length_append, ih, List.length_cons]
    change 2 + 2 * rest.length = _
    omega

theorem pairedBytes_lt {digits : List Char} (hex : ∀ c ∈ digits, c ∈ hexCharacters) :
    ∀ byte ∈ pairedBytes digits, byte < 256 := by
  induction digits using pairedBytes.induct with
  | case1 high low rest ih =>
    simp only [List.forall_mem_cons] at hex
    have first := (hexValue_spec hex.1).1
    have second := (hexValue_spec hex.2.1).1
    rw [pairedBytes, List.forall_mem_cons]
    exact ⟨by omega, ih hex.2.2⟩
  | case2 digits short =>
    rw [pairedBytes]
    · exact List.forall_mem_nil _
    · exact short

theorem pairedBytes_doubled (digits : List Char) :
    pairedBytes (digits.flatMap fun digit => [digit, digit]) = digits.map (17 * hexValue ·) := by
  induction digits with
  | nil => rfl
  | cons digit rest ih =>
    have value : 16 * hexValue digit + hexValue digit = 17 * hexValue digit := by omega
    change pairedBytes (digit :: digit :: rest.flatMap fun digit => [digit, digit]) = _
    rw [pairedBytes, ih, value]
    rfl

/-- The short form is read as its full form. -/
theorem hexBytes_eq (digits : List Char) : hexBytes digits = pairedBytes (fullDigits digits) := by
  rw [hexBytes, fullDigits]
  split
  · exact (pairedBytes_doubled digits).symm
  · rfl

section

variable {digits : List Char} (form : HexForm digits)
include form

theorem HexForm.full_hex : ∀ c ∈ fullDigits digits, c ∈ hexCharacters := by
  rw [fullDigits]
  split
  · intro c member
    obtain ⟨digit, inside, same⟩ := List.mem_flatMap.1 member
    simp only [List.mem_cons, List.not_mem_nil, or_false, or_self] at same
    rw [same]
    exact form.hex digit inside
  · exact form.hex

theorem HexForm.full_count : (fullDigits digits).length = 6 ∨ (fullDigits digits).length = 8 := by
  have count := form.count
  simp only [List.mem_cons, List.not_mem_nil, or_false] at count
  rw [fullDigits]
  split
  · have twice : (digits.flatMap fun digit => [digit, digit]).length = digits.length * 2 := by
      simp [List.length_flatMap]
    omega
  · omega

theorem HexForm.pairs_hexBytes :
    (hexBytes digits).flatMap hexPair = (fullDigits digits).map Char.toLower := by
  have even : (fullDigits digits).length % 2 = 0 := by
    rcases form.full_count with six | eight
    · rw [six]
    · rw [eight]
  rw [hexBytes_eq]
  exact pairs_pairedBytes form.full_hex even

end

/-! Colors of three or four bytes. -/

structure Octets where
  red : Nat
  green : Nat
  blue : Nat
  opacity : Option Nat
  small : ∀ byte ∈ red :: green :: blue :: opacity.toList, byte < 256

namespace Octets

def bytes (octets : Octets) : List Nat :=
  octets.red :: octets.green :: octets.blue :: octets.opacity.toList

def color (octets : Octets) : Color :=
  .rgb (byteFraction octets.red) (byteFraction octets.green) (byteFraction octets.blue)
    (octets.opacity.map byteFraction)

def pairs (octets : Octets) : List Char :=
  octets.bytes.flatMap hexPair

def solid (octets : Octets) : Octets where
  red := octets.red
  green := octets.green
  blue := octets.blue
  opacity := none
  small := by
    intro byte member
    exact octets.small byte (List.mem_append_left octets.opacity.toList member)

def visible (octets : Octets) : Octets :=
  if octets.opacity = some 255 then octets.solid else octets

end Octets

theorem HexForm.octets {digits : List Char} (form : HexForm digits) :
    ∃ octets : Octets, hexBytes digits = octets.bytes := by
  have small := pairedBytes_lt form.full_hex
  have count := congrArg List.length form.pairs_hexBytes
  rw [length_pairs, List.length_map] at count
  rw [← hexBytes_eq] at small
  rcases form.full_count with six | eight
  · obtain ⟨red, green, blue, bytes⟩ := List.length_eq_three.1
      (show (hexBytes digits).length = 3 by omega)
    rw [bytes] at small ⊢
    exact ⟨⟨red, green, blue, none, small⟩, rfl⟩
  · obtain ⟨red, green, blue, alpha, bytes⟩ := List.length_eq_four.1
      (show (hexBytes digits).length = 4 by omega)
    rw [bytes] at small ⊢
    exact ⟨⟨red, green, blue, some alpha, small⟩, rfl⟩

/-! Reading. -/

theorem accepted_iff {digits : List Char} :
    (digits.all isHexDigit && [3, 4, 6, 8].contains digits.length) = true ↔ HexForm digits := by
  rw [Bool.and_eq_true, List.all_eq_true, List.contains_iff_mem]
  constructor
  · intro accepted
    exact ⟨fun c member => mem_of_isHexDigit (accepted.1 c member), accepted.2⟩
  · intro form
    exact ⟨fun c member => isHexDigit_of_mem (form.hex c member), form.count⟩

/-- Accepted digits are read as bytes, and three or four bytes are a color. -/
theorem ofHex?_eq (text : String) :
    ofHex? text =
      if (afterNumberSign text).all isHexDigit &&
          [3, 4, 6, 8].contains (afterNumberSign text).length then
        match hexBytes (afterNumberSign text) with
        | [red, green, blue] => some (ofBytes red green blue)
        | [red, green, blue, alpha] =>
          some (.rgb (byteFraction red) (byteFraction green) (byteFraction blue)
            (some (byteFraction alpha)))
        | _ => none
      else none :=
  rfl

theorem ofHex?_octets {text : String} (form : HexForm (afterNumberSign text)) {octets : Octets}
    (bytes : hexBytes (afterNumberSign text) = octets.bytes) : ofHex? text = some octets.color := by
  rw [ofHex?_eq, if_pos (accepted_iff.2 form), bytes]
  obtain ⟨red, green, blue, opacity, small⟩ := octets
  cases opacity with
  | none => rfl
  | some alpha => rfl

theorem ofHex?_eq_none {text : String} (other : ¬ HexForm (afterNumberSign text)) :
    ofHex? text = none := by
  rw [ofHex?_eq, if_neg fun accepted => other (accepted_iff.1 accepted)]

/-! Writing. -/

/-- A byte is the nearest one to its fraction, and only the last byte is a whole. -/
theorem byte_reads_back : ∀ byte < 256, toByte (clampUnit (byteFraction byte)) = byte ∧
    (1.0 ≤ byteFraction byte ↔ byte = 255) := by
  -- The quotient and the product are rounded, so every byte is computed.
  decide +kernel

theorem hexText_eq (octets : Octets) :
    octets.color.hexText = String.ofList ('#' :: (octets.solid.pairs ++
      if octets.color.isOpaque then []
      else hexPair (toByte (clampUnit ((octets.opacity.map byteFraction).getD 1.0))))) := by
  have small := octets.small
  simp only [List.forall_mem_cons] at small
  have red := (byte_reads_back octets.red small.1).1
  have green := (byte_reads_back octets.green small.2.1).1
  have blue := (byte_reads_back octets.blue small.2.2.1).1
  rw [hexText]
  dsimp only [swatch, Octets.color]
  rw [red, green, blue]
  rfl

/-- The color of some bytes is written in their pairs of digits, without the opacity of an opaque
color. -/
theorem hexText_color (octets : Octets) :
    octets.color.hexText = String.ofList ('#' :: octets.visible.pairs) := by
  rw [hexText_eq]
  obtain ⟨red, green, blue, opacity, small⟩ := octets
  cases opacity with
  | none => rfl
  | some alpha =>
    have bound : alpha < 256 := small alpha (by simp)
    have written := byte_reads_back alpha bound
    have whole : (Octets.color ⟨red, green, blue, some alpha, small⟩).isOpaque =
        decide (alpha = 255) :=
      decide_eq_decide.2 written.2
    rw [whole]
    by_cases last : alpha = 255
    · subst last
      rfl
    · change String.ofList ('#' :: (_ ++ if decide (alpha = 255) = true then [] else
        hexPair (toByte (clampUnit (byteFraction alpha))))) = _
      rw [if_neg (by simp [last]), written.1, Octets.visible, if_neg (by simp [last])]
      rfl

theorem hexPair_full : ∀ byte < 256, hexPair byte = ['f', 'f'] ↔ byte = 255 := by
  decide +kernel

theorem HexForm.writtenDigits_eq {digits : List Char} (form : HexForm digits) {octets : Octets}
    (bytes : hexBytes digits = octets.bytes) : writtenDigits digits = octets.visible.pairs := by
  rw [writtenDigits, ← form.pairs_hexBytes, bytes]
  obtain ⟨red, green, blue, opacity, small⟩ := octets
  cases opacity with
  | none => rfl
  | some alpha =>
    have full := hexPair_full alpha (small alpha (by simp))
    change (if hexPair alpha = ['f', 'f'] then _ else _) = _
    by_cases last : alpha = 255
    · rw [if_pos (full.2 last)]
      subst last
      rfl
    · rw [if_neg fun equal => last (full.1 equal), Octets.visible, if_neg (by simp [last])]
      rfl

/-! Reading what was written. -/

theorem afterNumberSign_cons (digits : List Char) :
    afterNumberSign (String.ofList ('#' :: digits)) = digits := by
  rw [afterNumberSign, String.toList_ofList]
  rfl

theorem ofHex?_pairs (octets : Octets) :
    ofHex? (String.ofList ('#' :: octets.pairs)) = some octets.color := by
  have count : octets.pairs.length = 2 * octets.bytes.length := length_pairs octets.bytes
  have three : octets.bytes.length = 3 ∨ octets.bytes.length = 4 := by
    rw [Octets.bytes]
    cases octets.opacity with
    | none => exact Or.inl rfl
    | some alpha => exact Or.inr rfl
  have form : HexForm octets.pairs := by
    refine ⟨pairs_hex octets.small, ?_⟩
    simp only [List.mem_cons, List.not_mem_nil, or_false]
    omega
  have bytes : hexBytes octets.pairs = octets.bytes := by
    rw [hexBytes, if_neg (by omega)]
    exact pairedBytes_pairs octets.small
  rw [← afterNumberSign_cons octets.pairs] at form bytes
  exact ofHex?_octets form bytes

theorem spelledOut_visible (octets : Octets) :
    octets.visible.color.spelledOut = octets.color.spelledOut := by
  have whole : byteFraction 255 = 1.0 := by decide +kernel
  rw [Octets.visible]
  split
  · rename_i last
    rw [Octets.color, Octets.color, spelledOut, spelledOut, last, Option.map_some, whole]
    rfl
  · rfl

/-! Cutting digits by bytes. -/

theorem byteLength_hex {digits : List Char} (hex : ∀ c ∈ digits, c ∈ hexCharacters) :
    byteLength digits = digits.length := by
  induction digits with
  | nil => rfl
  | cons digit rest ih =>
    rw [List.forall_mem_cons] at hex
    rw [byteLength_cons, (hexValue_spec hex.1).2.2, ih hex.2, List.length_cons, Nat.add_comm]

theorem slice_pair {digits : List Char} (hex : ∀ c ∈ digits, c ∈ hexCharacters) {start : Nat}
    (inside : start + 2 ≤ byteLength digits) :
    ∃ high low, slice digits ⟨start, start + 2⟩ = some [high, low] := by
  rw [byteLength_hex hex] at inside
  have before : byteLength (digits.take start) = start := by
    rw [byteLength_hex fun c member => hex c (List.mem_of_mem_take member), List.length_take]
    omega
  have rest : digits.drop start =
      digits[start] :: digits[start + 1] :: digits.drop (start + 1 + 1) := by
    rw [List.drop_eq_getElem_cons (by omega), List.drop_eq_getElem_cons (by omega)]
  have pair : byteLength [digits[start], digits[start + 1]] = 2 := by
    apply byteLength_hex
    simp [hex]
  refine ⟨digits[start], digits[start + 1],
    slice_eq_some_iff.2 ⟨digits.take start, digits.drop (start + 1 + 1), ?_, ?_⟩⟩
  · have parts := List.take_append_drop start digits
    rw [rest] at parts
    rw [List.append_assoc]
    exact parts.symm
  · rw [before, pair]

/-- A text is read as a color exactly if it is three, four, six or eight hexadecimal digits after at
most one number sign. Digits are cut into pairs only when all characters are known to be digits, and
then each cut by bytes falls between two digits. A color that is read is written in its full digits
in lower case, without the opacity of an opaque color, and this is read as the same color. -/
theorem hex_color_reads_back (text : String) :
    ((ofHex? text).isSome = true ↔ HexForm (afterNumberSign text)) ∧
    ((∀ c ∈ afterNumberSign text, c ∈ hexCharacters) →
      ∀ start, start + 2 ≤ byteLength (afterNumberSign text) →
        ∃ high low, slice (afterNumberSign text) ⟨start, start + 2⟩ = some [high, low]) ∧
    ∀ color, ofHex? text = some color →
      color.hexText = String.ofList ('#' :: writtenDigits (afterNumberSign text)) ∧
      ∃ again, ofHex? color.hexText = some again ∧ again.spelledOut = color.spelledOut ∧
        again.swatch = color.swatch ∧ again.isOpaque = color.isOpaque := by
  refine ⟨?_, fun hex start inside => slice_pair hex inside, ?_⟩
  · by_cases form : HexForm (afterNumberSign text)
    · obtain ⟨octets, bytes⟩ := form.octets
      rw [ofHex?_octets form bytes]
      simp [form]
    · rw [ofHex?_eq_none form]
      simp [form]
  · intro color read
    by_cases form : HexForm (afterNumberSign text)
    · obtain ⟨octets, bytes⟩ := form.octets
      rw [ofHex?_octets form bytes, Option.some.injEq] at read
      rw [← read, hexText_color, form.writtenDigits_eq bytes]
      have same := spelledOut_visible octets
      refine ⟨rfl, octets.visible.color, ofHex?_pairs octets.visible, same, ?_, ?_⟩
      · rw [← swatch_spelledOut, same, swatch_spelledOut]
      · rw [← isOpaque_spelledOut, same, isOpaque_spelledOut]
    · rw [ofHex?_eq_none form] at read
      contradiction

/-- Four digits in both cases, the last of them for an opaque color. -/
theorem short_digits_read_back :
    ∃ color, ofHex? "#F0aF" = some color ∧ color.hexText = "#ff00aa" ∧
      ∃ again, ofHex? color.hexText = some again ∧ again.spelledOut = color.spelledOut := by
  have form : HexForm (afterNumberSign "#F0aF") := accepted_iff.1 (by decide +kernel)
  obtain ⟨accepted, _, results⟩ := hex_color_reads_back "#F0aF"
  obtain ⟨color, read⟩ := Option.isSome_iff_exists.1 (accepted.2 form)
  obtain ⟨written, again, back, same, _⟩ := results color read
  have digits : writtenDigits (afterNumberSign "#F0aF") = "ff00aa".toList := by decide +kernel
  refine ⟨color, read, ?_, again, back, same⟩
  rw [written, digits]
  rfl

example : (ofHex? "é1").isSome = false := by decide +kernel

end Color

end DesignTokens

import DesignTokens.Text.Digest
import Mathlib.Data.List.Basic
import Mathlib.Data.List.Induction

/-!
Base-36 numerals, and fingerprints, which are the numerals of digests. A numeral is read back to its
number, so two fingerprints are the same text exactly when the digests are equal. No number has two
canonical numerals, and a digest is the same number in signed and in unsigned arithmetic.
-/

namespace DesignTokens.Text

def digitOf (c : Char) : Nat :=
  if c.toNat < 0x3a then c.toNat - 0x30 else c.toNat - 0x57

/-- The number that a numeral in base 36 stands for. -/
def readBase36 (numeral : List Char) : Nat :=
  numeral.foldl (fun value c => 36 * value + digitOf c) 0

theorem digitOf_digitChar {digit : Nat} (small : digit < 36) :
    digitOf (digitChar digit) = digit := by
  have each : ∀ digit < 36, digitOf (digitChar digit) = digit := by decide
  exact each digit small

theorem readBase36_concat (numeral : List Char) (c : Char) :
    readBase36 (numeral ++ [c]) = 36 * readBase36 numeral + digitOf c := by
  rw [readBase36, List.foldl_append]
  rfl

theorem readBase36_base36 (value : Nat) : readBase36 (base36 value) = value := by
  induction value using base36.induct with
  | case1 value small =>
    rw [base36, if_pos small, ← List.nil_append [digitChar value], readBase36_concat,
      digitOf_digitChar small]
    exact Nat.zero_add value
  | case2 value large ih =>
    have last : value % 36 < 36 := Nat.mod_lt value (by decide)
    rw [base36, if_neg large, readBase36_concat, ih, digitOf_digitChar last]
    exact Nat.div_add_mod value 36

theorem base36_inj {left right : Nat} : base36 left = base36 right ↔ left = right :=
  (Function.LeftInverse.injective readBase36_base36).eq_iff

theorem mem_base36 {value : Nat} {c : Char} (member : c ∈ base36 value) :
    ∃ digit < 36, c = digitChar digit := by
  induction value using base36.induct with
  | case1 value small =>
    rw [base36, if_pos small] at member
    exact ⟨value, small, List.mem_singleton.1 member⟩
  | case2 value large ih =>
    rw [base36, if_neg large] at member
    rcases List.mem_append.1 member with front | last
    · exact ih front
    · exact ⟨value % 36, Nat.mod_lt value (by decide), List.mem_singleton.1 last⟩

theorem fingerprint_inj {left right : String} :
    fingerprint left = fingerprint right ↔ digest left.toList = digest right.toList := by
  rw [fingerprint, fingerprint, String.ofList_inj, base36_inj, UInt32.toNat_inj]

theorem colon_not_mem_fingerprint (text : String) : ':' ∉ (fingerprint text).toList := by
  have apart : ∀ digit < 36, ':' ≠ digitChar digit := by decide
  rw [fingerprint, String.toList_ofList]
  intro member
  obtain ⟨digit, small, same⟩ := mem_base36 member
  exact apart digit small same

/-! Canonical numerals. -/

def base36Digits : List Char :=
  "0123456789abcdefghijklmnopqrstuvwxyz".toList

/-- At least one digit, letters in lower case only, and no zero in front of another digit. -/
structure Canonical (numeral : List Char) : Prop where
  digits : ∀ c ∈ numeral, c ∈ base36Digits
  filled : numeral ≠ []
  unpadded : numeral.head? = some '0' → numeral = ['0']

theorem base36Digits_eq : base36Digits = (List.range 36).map digitChar := by
  decide +kernel

theorem digitChar_mem {digit : Nat} (small : digit < 36) : digitChar digit ∈ base36Digits := by
  rw [base36Digits_eq]
  exact List.mem_map_of_mem (List.mem_range.2 small)

theorem digitOf_spec {c : Char} (member : c ∈ base36Digits) :
    digitOf c < 36 ∧ digitChar (digitOf c) = c := by
  rw [base36Digits_eq] at member
  obtain ⟨digit, below, same⟩ := List.mem_map.1 member
  have small : digit < 36 := List.mem_range.1 below
  rw [← same, digitOf_digitChar small]
  exact ⟨small, rfl⟩

theorem base36_zero : base36 0 = ['0'] := by
  rw [base36]
  rfl

theorem base36_ne_nil (value : Nat) : base36 value ≠ [] := by
  rw [base36]
  split
  · exact List.cons_ne_nil _ _
  · exact List.append_ne_nil_of_right_ne_nil _ (List.cons_ne_nil _ _)

theorem base36_eq_zero {value : Nat} (zero : base36 value = ['0']) : value = 0 := by
  have read := readBase36_base36 value
  rw [zero] at read
  exact read.symm

theorem head?_base36 (value : Nat) (zero : (base36 value).head? = some '0') :
    base36 value = ['0'] := by
  induction value using base36.induct with
  | case1 value small =>
    rw [base36, if_pos small] at zero ⊢
    rw [List.head?_cons] at zero
    rw [Option.some.inj zero]
  | case2 value large ih =>
    have front : (base36 (value / 36)).head? = some '0' := by
      rw [base36, if_neg large, List.head?_append_of_ne_nil _ (base36_ne_nil _)] at zero
      exact zero
    have nothing : value / 36 = 0 := base36_eq_zero (ih front)
    omega

theorem canonical_base36 (value : Nat) : Canonical (base36 value) where
  digits := by
    intro c member
    obtain ⟨digit, small, same⟩ := mem_base36 member
    rw [same]
    exact digitChar_mem small
  filled := base36_ne_nil value
  unpadded := head?_base36 value

theorem Canonical.front {numeral : List Char} {last : Char}
    (canonical : Canonical (numeral ++ [last])) (filled : numeral ≠ []) : Canonical numeral where
  digits := by
    intro c member
    exact canonical.digits c (List.mem_append_left _ member)
  filled := filled
  unpadded := by
    intro zero
    rw [← List.head?_append_of_ne_nil _ filled] at zero
    have single := congrArg List.length (canonical.unpadded zero)
    rw [List.length_append] at single
    have empty : numeral = [] := List.eq_nil_of_length_eq_zero (Nat.succ.inj single)
    exact absurd empty filled

theorem base36_readBase36 {numeral : List Char} (canonical : Canonical numeral) :
    base36 (readBase36 numeral) = numeral := by
  induction numeral using List.reverseRecOn with
  | nil => exact absurd rfl canonical.filled
  | append_singleton numeral last ih =>
    have member : last ∈ numeral ++ [last] := List.mem_append_right _ (List.mem_singleton_self last)
    obtain ⟨small, same⟩ := digitOf_spec (canonical.digits last member)
    rw [readBase36_concat]
    by_cases single : numeral = []
    · subst single
      have value : 36 * readBase36 [] + digitOf last = digitOf last := Nat.zero_add _
      rw [value, base36, if_pos small, same]
      rfl
    · have front := ih (canonical.front single)
      -- A front that stands for zero is the digit zero, and no other digit follows that one.
      have positive : readBase36 numeral ≠ 0 := by
        intro nothing
        have zero : numeral = ['0'] := by rw [← front, nothing, base36_zero]
        rw [zero] at canonical
        have padded := canonical.unpadded rfl
        cases padded
      have quotient : (36 * readBase36 numeral + digitOf last) / 36 = readBase36 numeral := by omega
      have remainder : (36 * readBase36 numeral + digitOf last) % 36 = digitOf last := by omega
      rw [base36, if_neg (by omega), quotient, remainder, front, same]

/-- Each number has one canonical numeral. -/
theorem canonical_iff {numeral : List Char} {value : Nat} :
    Canonical numeral ∧ readBase36 numeral = value ↔ numeral = base36 value := by
  constructor
  · intro canonical
    rw [← canonical.2, base36_readBase36 canonical.1]
  · intro same
    rw [same]
    exact ⟨canonical_base36 value, readBase36_base36 value⟩

/-! The code units of a text. -/

def codeUnits (text : List Char) : List Nat :=
  (text.flatMap units16).map UInt32.toNat

/-- The code points that code units stand for. A high surrogate and the low surrogate after it stand
for one. -/
def codePoints : List Nat → List Nat
  | high :: low :: rest =>
    if 0xd800 ≤ high ∧ high < 0xdc00 ∧ 0xdc00 ≤ low ∧ low < 0xe000 then
      (0x10000 + 0x400 * (high - 0xd800) + (low - 0xdc00)) :: codePoints rest
    else
      high :: codePoints (low :: rest)
  | [unit] => [unit]
  | [] => []

theorem codePoints_single {unit : Nat} (plain : unit < 0xd800 ∨ 0xdfff < unit) (rest : List Nat) :
    codePoints (unit :: rest) = unit :: codePoints rest := by
  cases rest with
  | nil => simp [codePoints]
  | cons low rest =>
    rw [codePoints, if_neg (by omega)]

/-- A character is one unit below 0x10000, and a high and a low surrogate from there on. -/
theorem units16_cases (c : Char) :
    ((units16 c).map UInt32.toNat = [c.toNat] ∧ c.toNat < 0x10000 ∧
        (c.toNat < 0xd800 ∨ 0xdfff < c.toNat)) ∨
      ∃ high low, (units16 c).map UInt32.toNat = [high, low] ∧
        (0xd800 ≤ high ∧ high < 0xdc00 ∧ 0xdc00 ≤ low ∧ low < 0xe000) ∧
        0x10000 + 0x400 * (high - 0xd800) + (low - 0xdc00) = c.toNat := by
  have valid : c.toNat < 0xd800 ∨ 0xdfff < c.toNat ∧ c.toNat < 0x110000 := c.valid
  unfold units16
  split
  · rename_i basic
    have bound : c.toNat < 0x10000 := UInt32.lt_iff_toNat_lt.1 basic
    exact Or.inl ⟨rfl, bound, by omega⟩
  · rename_i beyond
    have bound : 0x10000 ≤ c.toNat :=
      Nat.not_lt.1 fun less => beyond (UInt32.lt_iff_toNat_lt.2 less)
    have offset : (c.val - 0x10000).toNat = c.toNat - 0x10000 :=
      UInt32.toNat_sub_of_le _ _ (UInt32.le_iff_toNat_le.2 bound)
    have high : (0xd800 + (c.val - 0x10000) / 0x400).toNat =
        0xd800 + (c.toNat - 0x10000) / 0x400 := by
      rw [UInt32.toNat_add, UInt32.toNat_div, offset]
      exact Nat.mod_eq_of_lt (show 0xd800 + (c.toNat - 0x10000) / 0x400 < 0x100000000 by omega)
    have low : (0xdc00 + (c.val - 0x10000) % 0x400).toNat =
        0xdc00 + (c.toNat - 0x10000) % 0x400 := by
      rw [UInt32.toNat_add, UInt32.toNat_mod, offset]
      exact Nat.mod_eq_of_lt (show 0xdc00 + (c.toNat - 0x10000) % 0x400 < 0x100000000 by omega)
    refine Or.inr ⟨_, _, congrArg₂ (fun first second => [first, second]) high low, ?_, ?_⟩
    · omega
    · omega

theorem codeUnits_cons (c : Char) (rest : List Char) :
    codeUnits (c :: rest) = (units16 c).map UInt32.toNat ++ codeUnits rest := by
  rw [codeUnits, List.flatMap_cons, List.map_append]
  rfl

theorem codeUnits_lt (text : List Char) : ∀ unit ∈ codeUnits text, unit < 0x10000 := by
  induction text with
  | nil =>
    intro unit member
    cases member
  | cons c rest ih =>
    rw [codeUnits_cons, List.forall_mem_append]
    refine ⟨?_, ih⟩
    intro unit member
    obtain ⟨single, basic, _⟩ | ⟨high, low, pair, ranges, _⟩ := units16_cases c
    · rw [single] at member
      rw [List.mem_singleton.1 member]
      exact basic
    · rw [pair] at member
      simp only [List.mem_cons, List.not_mem_nil, or_false] at member
      omega

/-- The code units of a text stand for its characters. -/
theorem codePoints_codeUnits (text : List Char) :
    codePoints (codeUnits text) = text.map Char.toNat := by
  induction text with
  | nil => rfl
  | cons c rest ih =>
    rw [codeUnits_cons, List.map_cons, ← ih]
    obtain ⟨single, _, plain⟩ | ⟨high, low, pair, ranges, value⟩ := units16_cases c
    · rw [single]
      exact codePoints_single plain (codeUnits rest)
    · rw [pair, ← value]
      change codePoints (high :: low :: codeUnits rest) = _
      rw [codePoints, if_pos ranges]

/-! Digests in unsigned and in signed arithmetic. -/

/-- Multiply by 33 modulo 2 ^ 32 and exclusive-or the next unit, from 5381. -/
def unsignedDigest (units : List Nat) : Nat :=
  units.foldl (fun hash unit => (33 * hash % 0x100000000) ^^^ unit) 5381

/-- The same in signed words of 32 bits, where products wrap around. -/
def signedDigest (units : List Nat) : Int32 :=
  units.foldl (fun hash unit => hash * 33 ^^^ Int32.ofNat unit) 5381

theorem digest_toNat (text : List Char) :
    (digest text).toNat = unsignedDigest (codeUnits text) := by
  have step (hash unit : UInt32) :
      (33 * hash.toNat % 0x100000000) ^^^ unit.toNat = (hash * 33 ^^^ unit).toNat := by
    rw [UInt32.toNat_xor, UInt32.toNat_mul, Nat.mul_comm]
    rfl
  rw [unsignedDigest, codeUnits, List.foldl_map]
  exact (List.foldl_hom UInt32.toNat step).symm

/-- One step in signed words, read as unsigned ones. -/
theorem signed_step (hash : Int32) {unit : Nat} (bound : unit < 0x10000) :
    (hash * 33 ^^^ Int32.ofNat unit).toUInt32.toNat =
      (33 * hash.toUInt32.toNat % 0x100000000) ^^^ unit := by
  have product : (hash * 33 ^^^ Int32.ofNat unit).toUInt32 =
      hash.toUInt32 * 33 ^^^ UInt32.ofNat unit := rfl
  have same : (UInt32.ofNat unit).toNat = unit :=
    UInt32.toNat_ofNat_of_lt (Nat.lt_trans bound (by decide))
  rw [product, UInt32.toNat_xor, UInt32.toNat_mul, same, Nat.mul_comm]
  rfl

theorem signedDigest_toNat {units : List Nat} (bound : ∀ unit ∈ units, unit < 0x10000) :
    (signedDigest units).toUInt32.toNat = unsignedDigest units := by
  have run (hash : Int32) :
      (units.foldl (fun hash unit => hash * 33 ^^^ Int32.ofNat unit) hash).toUInt32.toNat =
        units.foldl (fun hash unit => (33 * hash % 0x100000000) ^^^ unit) hash.toUInt32.toNat := by
    induction units generalizing hash with
    | nil => rfl
    | cons unit rest ih =>
      rw [List.forall_mem_cons] at bound
      rw [List.foldl_cons, List.foldl_cons, ih bound.2, signed_step hash bound.1]
  exact run 5381

/-- A fingerprint is the canonical numeral in base 36 of the number that is folded from the code
units of the text, in signed words as in unsigned ones; so texts with the same fingerprint are those
with the same number. -/
theorem fingerprint_numeral (text : String) :
    ((∀ unit ∈ codeUnits text.toList, unit < 0x10000) ∧
        codePoints (codeUnits text.toList) = text.toList.map Char.toNat) ∧
      (∀ numeral, Canonical numeral ∧ readBase36 numeral = unsignedDigest (codeUnits text.toList) ↔
        fingerprint text = String.ofList numeral) ∧
      unsignedDigest (codeUnits text.toList) < 0x100000000 ∧
      (signedDigest (codeUnits text.toList)).toUInt32.toNat =
        unsignedDigest (codeUnits text.toList) ∧
      ∀ other, fingerprint text = fingerprint other ↔
        unsignedDigest (codeUnits text.toList) = unsignedDigest (codeUnits other.toList) := by
  have bound := codeUnits_lt text.toList
  refine ⟨⟨bound, codePoints_codeUnits text.toList⟩, ?_, ?_, signedDigest_toNat bound, ?_⟩
  · intro numeral
    rw [canonical_iff, ← digest_toNat, fingerprint, String.ofList_inj]
    exact eq_comm
  · rw [← digest_toNat]
    exact UInt32.toNat_lt _
  · intro other
    rw [fingerprint_inj, ← digest_toNat, ← digest_toNat, UInt32.toNat_inj]

example : fingerprint "" = "45h" := by cbv

end DesignTokens.Text

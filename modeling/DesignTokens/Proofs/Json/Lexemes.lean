import DesignTokens.Json.Lexeme
import DesignTokens.Proofs.Css.Guard

/-!
Strings and numbers of JSON as they are written and read again. A quoted text is read back up to its
closing quote, whatever follows it; a number is read back in front of a comma or a closing bracket.
-/

namespace DesignTokens.Json

open DesignTokens.Number

/-! Strings -/

/-- How a written character is read: a control character without a letter of its own stays the code
that was written for it. -/
def pieceOf (c : Char) : Piece :=
  if c.toNat < 0x20 ∧ c ∉ ['\x08', '\x0c', '\n', '\r', '\t'] then .unit c.toNat else .char c

theorem readHex_control : ∀ code < 0x20,
    ['0', '0', Nat.digitChar (code / 16), Nat.digitChar (code % 16)].all Css.isHexDigit = true ∧
      Css.readHex ['0', '0', Nat.digitChar (code / 16), Nat.digitChar (code % 16)] = code := by
  decide

theorem pieces?_escapeChar (c : Char) (rest : List Char) :
    pieces? (escapeChar c ++ rest) =
      (pieces? rest).map fun (pieces, after) => (pieceOf c :: pieces, after) := by
  unfold escapeChar
  split
  all_goals try rfl
  rename_i quote slash backspace feed line carriage tab
  split
  · rename_i control
    obtain ⟨digits, code⟩ := readHex_control c.toNat control
    have unit : pieceOf c = .unit c.toNat :=
      if_pos ⟨control, by simpa using ⟨backspace, feed, line, carriage, tab⟩⟩
    simp only [List.cons_append, List.nil_append, pieces?, digits, if_true, code, unit]
  · rename_i printed
    have char : pieceOf c = .char c := if_neg fun control => printed control.1
    have other : ¬ (c.toNat < 0x20 ∨ c = '\\') := fun either => either.elim printed slash
    rw [List.singleton_append, pieces?]
    · simp only [Bool.or_eq_true, decide_eq_true_eq, other, if_false, char]
    · exact quote
    · exact fun _ _ _ _ _ same => absurd same slash
    · exact fun _ _ same => absurd same slash

theorem pieces?_quoted (text rest : List Char) :
    pieces? (text.flatMap escapeChar ++ '"' :: rest) = some (text.map pieceOf, rest) := by
  induction text with
  | nil => rfl
  | cons c text ih =>
    rw [List.flatMap_cons, List.append_assoc, pieces?_escapeChar, ih]
    rfl

/-- A code below the surrogates stands for its character, whatever comes next. -/
theorem textOfPieces?_unit {code : Nat} (small : code < 0xd800) (rest : List Piece) :
    textOfPieces? (.unit code :: rest) = (textOfPieces? rest).map (Char.ofNat code :: ·) := by
  have high : isHighSurrogate code = false := by
    simp [isHighSurrogate]
    omega
  have low : isLowSurrogate code = false := by
    simp [isLowSurrogate]
    omega
  rcases rest with _ | ⟨_ | _, rest⟩ <;> simp [textOfPieces?, high, low]

theorem textOfPieces?_pieceOf (text : List Char) :
    textOfPieces? (text.map pieceOf) = some text := by
  induction text with
  | nil => rfl
  | cons c text ih =>
    rw [List.map_cons, pieceOf]
    split
    · rename_i control
      rw [textOfPieces?_unit (by omega), ih, Option.map_some, Char.ofNat_toNat]
    · rw [textOfPieces?, ih, Option.map_some]

def piecesOf (text : String) : List Piece :=
  text.toList.map pieceOf

/-! Numbers -/

def endsNumber (c : Char) : Bool :=
  [',', ']', '}'].contains c

section Digits

variable {mark : Char} (ends : endsNumber mark = true)
include ends

theorem endsNumber_guard : Css.isGuard mark = true := by
  have listed : mark = ',' ∨ mark = ']' ∨ mark = '}' := by simpa [endsNumber] using ends
  rcases listed with rfl | rfl | rfl <;> rfl

theorem digits_before (text after : List Char) :
    (text ++ mark :: after).takeWhile Char.isDigit = text.takeWhile Char.isDigit ∧
      (text ++ mark :: after).dropWhile Char.isDigit =
        text.dropWhile Char.isDigit ++ mark :: after :=
  have outside := Css.guard_not_digit (endsNumber_guard ends)
  ⟨Css.takeWhile_guard outside text after, Css.dropWhile_guard outside text after⟩

theorem wholeDigits_before {text digits rest : List Char}
    (read : wholeDigits text = some (digits, rest)) (after : List Char) :
    wholeDigits (text ++ mark :: after) = some (digits, rest ++ mark :: after) := by
  have outside := Css.guard_not_digit (endsNumber_guard ends)
  cases text with
  | nil => contradiction
  | cons c text =>
    by_cases zero : c = '0'
    · subst zero
      cases text with
      | nil =>
        cases read
        simp [wholeDigits, outside]
      | cons d text =>
        rw [List.cons_append, List.cons_append, wholeDigits, List.head?_cons, Option.any_some]
        rw [wholeDigits, List.head?_cons, Option.any_some] at read
        cases digit : d.isDigit with
        | true => simp [digit] at read
        | false =>
          rw [digit, if_neg Bool.false_ne_true] at read
          cases read
          rfl
    · obtain ⟨taken, left⟩ := digits_before ends (c :: text) after
      rw [wholeDigits] at read
      · rw [List.cons_append, wholeDigits]
        · simp only [List.cons_append] at taken left
          simp only [taken, left]
          split at read
          · contradiction
          · rename_i found
            cases read
            rw [if_neg found]
        · exact fun tail same => zero (List.cons.inj same).1
      · exact fun tail same => zero (List.cons.inj same).1

theorem fractionDigits_before {text digits rest : List Char}
    (read : fractionDigits text = some (digits, rest)) (after : List Char) :
    fractionDigits (text ++ mark :: after) = some (digits, rest ++ mark :: after) := by
  have notPoint : mark ≠ '.' := Css.guard_ne (endsNumber_guard ends) rfl
  cases text with
  | nil =>
    cases read
    rw [List.nil_append, fractionDigits]
    exact fun tail same => notPoint (List.cons.inj same).1
  | cons c text =>
    by_cases point : c = '.'
    · subst point
      obtain ⟨taken, left⟩ := digits_before ends text after
      simp only [fractionDigits, List.cons_append, taken, left] at read ⊢
      split at read
      · contradiction
      · rename_i found
        cases read
        rw [if_neg found]
    · rw [fractionDigits] at read
      · cases read
        rw [List.cons_append, fractionDigits]
        exact fun tail same => point (List.cons.inj same).1
      · exact fun tail same => point (List.cons.inj same).1

theorem takeSign_before (text after : List Char) :
    takeSign (text ++ mark :: after) = ((takeSign text).1, (takeSign text).2 ++ mark :: after) := by
  have plus : mark ≠ '+' := Css.guard_ne (endsNumber_guard ends) rfl
  have minus : mark ≠ '-' := Css.guard_ne (endsNumber_guard ends) rfl
  cases text with
  | nil => simp [takeSign, plus, minus]
  | cons c text =>
    by_cases first : c = '+' <;> by_cases second : c = '-' <;> simp [takeSign, first, second]

theorem exponentDigits_before {text rest : List Char} {exponent : Option (Bool × List Char)}
    (read : exponentDigits text = some (exponent, rest)) (after : List Char) :
    exponentDigits (text ++ mark :: after) = some (exponent, rest ++ mark :: after) := by
  have small : mark ≠ 'e' := Css.guard_ne (endsNumber_guard ends) rfl
  have large : mark ≠ 'E' := Css.guard_ne (endsNumber_guard ends) rfl
  cases text with
  | nil =>
    cases read
    simp [exponentDigits, small, large]
  | cons c text =>
    obtain ⟨taken, left⟩ := digits_before ends (takeSign text).2 after
    simp only [exponentDigits, List.cons_append, takeSign_before ends, taken, left] at read ⊢
    split at read
    · rename_i letter
      split at read
      · contradiction
      · rename_i found
        cases read
        rw [if_pos letter, if_neg found]
    · rename_i letter
      cases read
      rw [if_neg letter]
      rfl

theorem minusSign_before (text after : List Char) :
    minusSign (text ++ mark :: after) =
      ((minusSign text).1, (minusSign text).2 ++ mark :: after) := by
  have minus : mark ≠ '-' := Css.guard_ne (endsNumber_guard ends) rfl
  cases text with
  | nil => simp [minusSign, minus]
  | cons c text => by_cases first : c = '-' <;> simp [minusSign, first]

/-- A number that is a whole text is the same number in front of the mark. -/
theorem numeral?_before {text : List Char} {numeral : Numeral}
    (read : numeral? text = some (numeral, [])) (after : List Char) :
    numeral? (text ++ mark :: after) = some (numeral, mark :: after) := by
  simp only [numeral?, Option.bind_eq_bind, Option.bind_eq_some_iff] at read
  obtain ⟨⟨whole, afterWhole⟩, wholeRead, ⟨fraction, afterFraction⟩, fractionRead,
    ⟨exponent, rest⟩, exponentRead, result⟩ := read
  simp only [Option.pure_def, Option.some.injEq, Prod.mk.injEq] at result
  obtain ⟨rfl, rfl⟩ := result
  rw [numeral?, minusSign_before ends]
  simp only [Option.bind_eq_bind, wholeDigits_before ends wholeRead, Option.bind_some,
    fractionDigits_before ends fractionRead, exponentDigits_before ends exponentRead,
    Option.pure_def, List.nil_append]

end Digits

theorem numeral?_head {text rest : List Char} {numeral : Numeral}
    (read : numeral? text = some (numeral, rest)) :
    ∃ c tail, text = c :: tail ∧ (c.isDigit = true ∨ c = '-') := by
  cases text with
  | nil => contradiction
  | cons c tail =>
    refine ⟨c, tail, rfl, ?_⟩
    by_cases minus : c = '-'
    · exact Or.inr minus
    · refine Or.inl (Decidable.byContradiction fun other => ?_)
      have unsigned : minusSign (c :: tail) = (false, c :: tail) := by simp [minusSign, minus]
      have zero : c ≠ '0' := fun same => other (by rw [same]; rfl)
      have nothing : wholeDigits (c :: tail) = none := by
        rw [wholeDigits]
        · simp [other]
        · exact fun rest same => zero (List.cons.inj same).1
      simp only [numeral?, unsigned, nothing] at read
      contradiction

/-! Lexemes -/

theorem lexemes?_lexeme {text after : List Char} {lexeme : Lexeme}
    (visible : text.head?.all (fun c => !isBlank c) = true)
    (read : lexeme? text = some (lexeme, after)) :
    lexemes? text = (lexemes? after).map (lexeme :: ·) := by
  cases text with
  | nil => contradiction
  | cons c text =>
    have shown : isBlank c = false := by simpa using visible
    rw [lexemes?]
    simp only [shown, Bool.false_eq_true, if_false]
    split
    · rename_i failed
      rw [read] at failed
      contradiction
    · rename_i other rest found
      rw [read] at found
      cases found
      rfl

def Reads (text : List Char) (written : List Lexeme) : Prop :=
  ∀ mark, endsNumber mark = true → ∀ after,
    lexemes? (text ++ mark :: after) = (lexemes? (mark :: after)).map (written ++ ·)

theorem lexemes?_quote (text : String) (after : List Char) :
    lexemes? (quote text ++ after) = (lexemes? after).map (.quoted (piecesOf text) :: ·) := by
  refine lexemes?_lexeme rfl ?_
  rw [quote, List.append_assoc, List.cons_append, lexeme?, List.singleton_append, pieces?_quoted]
  rfl

theorem reads_quote (text : String) : Reads (quote text) [.quoted (piecesOf text)] :=
  fun _ _ _ => lexemes?_quote text _

def otherStarts : List Char :=
  ['"', '[', ']', '\x7b', '\x7d', ',', ':', 'n', 't', 'f', ' ', '\t', '\n', '\r']

theorem number_start {c : Char} (start : c.isDigit = true ∨ c = '-') :
    ∀ other ∈ otherStarts, c ≠ other := by
  have apart : (otherStarts.all fun other => !(other.isDigit || other = '-')) = true := by decide
  rintro other listed rfl
  have differs := List.all_eq_true.1 apart c listed
  rcases start with digit | minus
  · simp [digit] at differs
  · simp [minus] at differs

theorem reads_numeral {text : List Char} {numeral : Numeral}
    (read : numeral? text = some (numeral, [])) : Reads text [.number numeral] := by
  intro mark ends after
  obtain ⟨c, tail, rfl, start⟩ := numeral?_head read
  have outside := number_start start
  simp only [otherStarts, List.forall_mem_cons] at outside
  obtain ⟨quote, openArray, closeArray, openObject, closeObject, comma, colon, n, t, f, space, tab,
    newline, carriage, -⟩ := outside
  refine lexemes?_lexeme ?_ ?_
  · simp [isBlank, space, tab, newline, carriage]
  · have unfixed : fixedLexeme? (c :: tail ++ mark :: after) = none := by
      unfold fixedLexeme?
      split <;> simp_all
    rw [lexeme?]
    · simp only [unfixed, numeral?_before ends read after, Option.map_some]
    · exact fun rest same => quote (List.cons.inj same).1

end DesignTokens.Json

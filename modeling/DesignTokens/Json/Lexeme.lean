import DesignTokens.Json.Numeral
import DesignTokens.Json.Quoted

/-!
The lexemes of JSON.
-/

namespace DesignTokens.Json

open DesignTokens.Number

inductive Lexeme where
  | openArray
  | closeArray
  | openObject
  | closeObject
  | comma
  | colon
  | null
  | boolean (value : Bool)
  | number (numeral : Numeral)
  | quoted (pieces : List Piece)
  deriving DecidableEq, Repr

def isBlank (c : Char) : Bool :=
  c = ' ' || c = '\t' || c = '\n' || c = '\r'

def fixedLexeme? : List Char → Option (Lexeme × List Char)
  | '[' :: rest => some (.openArray, rest)
  | ']' :: rest => some (.closeArray, rest)
  | '\x7b' :: rest => some (.openObject, rest)
  | '\x7d' :: rest => some (.closeObject, rest)
  | ',' :: rest => some (.comma, rest)
  | ':' :: rest => some (.colon, rest)
  | 'n' :: 'u' :: 'l' :: 'l' :: rest => some (.null, rest)
  | 't' :: 'r' :: 'u' :: 'e' :: rest => some (.boolean true, rest)
  | 'f' :: 'a' :: 'l' :: 's' :: 'e' :: rest => some (.boolean false, rest)
  | _ => none

def lexeme? (text : List Char) : Option (Lexeme × List Char) :=
  match text with
  | '"' :: rest => (pieces? rest).map fun (pieces, after) => (.quoted pieces, after)
  | text =>
    match fixedLexeme? text with
    | some read => some read
    | none => (numeral? text).map fun (numeral, after) => (.number numeral, after)

theorem fixedLexeme?_length {text rest : List Char} {lexeme : Lexeme}
    (read : fixedLexeme? text = some (lexeme, rest)) : rest.length < text.length := by
  unfold fixedLexeme? at read
  split at read <;> simp_all <;> omega

theorem lexeme?_length {text rest : List Char} {lexeme : Lexeme}
    (read : lexeme? text = some (lexeme, rest)) : rest.length < text.length := by
  unfold lexeme? at read
  split at read
  · rename_i tail
    simp only [Option.map_eq_some_iff, Prod.mk.injEq] at read
    obtain ⟨⟨pieces, after⟩, found, _, rfl⟩ := read
    have shorter := pieces?_length found
    simp only [List.length_cons]
    omega
  · split at read
    · rename_i found
      cases read
      exact fixedLexeme?_length found
    · simp only [Option.map_eq_some_iff, Prod.mk.injEq] at read
      obtain ⟨⟨numeral, after⟩, found, _, rfl⟩ := read
      exact numeral?_length found

def lexemes? (text : List Char) : Option (List Lexeme) :=
  match text with
  | [] => some []
  | c :: rest =>
    if isBlank c then lexemes? rest
    else
      match read : lexeme? (c :: rest) with
      | none => none
      | some (lexeme, after) =>
        have := lexeme?_length read
        (lexemes? after).map (lexeme :: ·)
termination_by text.length
decreasing_by all_goals simp_all

end DesignTokens.Json

import DesignTokens.Css.Character

/-!
Strings of JSON. A written string is first read as pieces, in which an escaped code unit is still a
number; only a string whose value counts has to put surrogates together.
-/

namespace DesignTokens.Json

inductive Piece where
  | char (c : Char)
  | unit (code : Nat)
  deriving DecidableEq, Repr

def escapedChar? (c : Char) : Option Char :=
  match c with
  | '"' => some '"'
  | '\\' => some '\\'
  | '/' => some '/'
  | 'b' => some '\x08'
  | 'f' => some '\x0c'
  | 'n' => some '\n'
  | 'r' => some '\r'
  | 't' => some '\t'
  | _ => none

def pieces? : List Char → Option (List Piece × List Char)
  | [] => none
  | '"' :: rest => some ([], rest)
  | '\\' :: 'u' :: a :: b :: c :: d :: rest =>
    if [a, b, c, d].all Css.isHexDigit then
      (pieces? rest).map fun (pieces, after) => (.unit (Css.readHex [a, b, c, d]) :: pieces, after)
    else
      none
  | '\\' :: c :: rest =>
    match escapedChar? c with
    | some meant => (pieces? rest).map fun (pieces, after) => (.char meant :: pieces, after)
    | none => none
  | c :: rest =>
    if c.toNat < 0x20 || c = '\\' then none
    else (pieces? rest).map fun (pieces, after) => (.char c :: pieces, after)

def isHighSurrogate (code : Nat) : Bool :=
  0xd800 ≤ code && code < 0xdc00

def isLowSurrogate (code : Nat) : Bool :=
  0xdc00 ≤ code && code < 0xe000

/-- The value of a string. A surrogate has to stand in a pair. -/
def textOfPieces? : List Piece → Option (List Char)
  | [] => some []
  | .char c :: rest => (textOfPieces? rest).map (c :: ·)
  | .unit high :: .unit low :: rest =>
    if isHighSurrogate high then
      if isLowSurrogate low then
        (textOfPieces? rest).map
          (Char.ofNat (0x10000 + (high - 0xd800) * 0x400 + (low - 0xdc00)) :: ·)
      else
        none
    else if isLowSurrogate high then none
    else (textOfPieces? (.unit low :: rest)).map (Char.ofNat high :: ·)
  | .unit code :: rest =>
    if isHighSurrogate code || isLowSurrogate code then none
    else (textOfPieces? rest).map (Char.ofNat code :: ·)

def escapeChar (c : Char) : List Char :=
  match c with
  | '"' => ['\\', '"']
  | '\\' => ['\\', '\\']
  | '\x08' => ['\\', 'b']
  | '\x0c' => ['\\', 'f']
  | '\n' => ['\\', 'n']
  | '\r' => ['\\', 'r']
  | '\t' => ['\\', 't']
  | c =>
    if c.toNat < 0x20 then
      ['\\', 'u', '0', '0', Nat.digitChar (c.toNat / 16), Nat.digitChar (c.toNat % 16)]
    else
      [c]

def quote (text : String) : List Char :=
  '"' :: text.toList.flatMap escapeChar ++ ['"']

theorem pieces?_length {text rest : List Char} {pieces : List Piece}
    (read : pieces? text = some (pieces, rest)) : rest.length < text.length := by
  fun_induction pieces? text generalizing pieces rest with
  | case1 => contradiction
  | case2 => simp_all
  | case3 a b c d tail _ ih =>
    simp only [Option.map_eq_some_iff, Prod.mk.injEq] at read
    obtain ⟨⟨inner, after⟩, found, _, rfl⟩ := read
    have shorter := ih found
    simp only [List.length_cons]
    omega
  | case4 => contradiction
  | case5 c tail _ meant _ ih =>
    simp only [Option.map_eq_some_iff, Prod.mk.injEq] at read
    obtain ⟨⟨inner, after⟩, found, _, rfl⟩ := read
    have shorter := ih found
    simp only [List.length_cons]
    omega
  | case6 => contradiction
  | case7 => contradiction
  | case8 c tail _ _ _ _ ih =>
    simp only [Option.map_eq_some_iff, Prod.mk.injEq] at read
    obtain ⟨⟨inner, after⟩, found, _, rfl⟩ := read
    have shorter := ih found
    simp only [List.length_cons]
    omega

end DesignTokens.Json

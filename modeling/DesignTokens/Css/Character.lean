/-!
Character classes of CSS. NUL is a name character and reads as the replacement character; every
character outside ASCII is a name character.
-/

namespace DesignTokens.Css

def isNewline (c : Char) : Bool :=
  c = '\n' || c = '\r' || c = '\x0c'

def isSpace (c : Char) : Bool :=
  c = ' ' || c = '\t' || isNewline c

def isHexDigit (c : Char) : Bool :=
  c.isDigit || ('a' ≤ c && c ≤ 'f') || ('A' ≤ c && c ≤ 'F')

def hexValue (c : Char) : Nat :=
  if c.isDigit then c.toNat - 0x30 else c.toLower.toNat - 0x57

def readHex (digits : List Char) : Nat :=
  digits.foldl (fun value digit => 16 * value + hexValue digit) 0

def isNameStart (c : Char) : Bool :=
  c.isAlpha || c = '_' || c = '\x00' || 0x80 ≤ c.toNat

def isNameChar (c : Char) : Bool :=
  isNameStart c || c.isDigit || c = '-'

def isNonPrintable (c : Char) : Bool :=
  (0x01 ≤ c.toNat && c.toNat ≤ 0x08) || c.toNat = 0x0b
    || (0x0e ≤ c.toNat && c.toNat ≤ 0x1f) || c.toNat = 0x7f

def replacementCharacter : Char := '\ufffd'

/-- A character as it counts in a value: NUL reads as the replacement character. -/
def readable (c : Char) : Char :=
  if c = '\x00' then replacementCharacter else c

/-- The character a hexadecimal escape stands for. Zero, surrogates and numbers above the last
code point read as the replacement character. -/
def escapedCharacter (code : Nat) : Char :=
  if code ≠ 0 && (code < 0xd800 || (0xdfff < code && code < 0x110000)) then Char.ofNat code
  else replacementCharacter

end DesignTokens.Css

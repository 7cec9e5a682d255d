/-!
A 32-bit digest of a text and its base-36 numeral. The digest folds over the UTF-16 code units of
the text, so a character outside the basic plane counts as its two surrogates.
-/

namespace DesignTokens.Text

def units16 (c : Char) : List UInt32 :=
  if c.val < 0x10000 then
    [c.val]
  else
    [0xd800 + (c.val - 0x10000) / 0x400, 0xdc00 + (c.val - 0x10000) % 0x400]

/-- Multiply by 33 and exclusive-or the next unit, modulo 2 ^ 32, from 5381. -/
def digest (text : List Char) : UInt32 :=
  (text.flatMap units16).foldl (fun hash unit => hash * 33 ^^^ unit) 5381

def digitChar (digit : Nat) : Char :=
  if digit < 10 then Char.ofNat (0x30 + digit) else Char.ofNat (0x57 + digit)

def base36 (value : Nat) : List Char :=
  if value < 36 then
    [digitChar value]
  else
    base36 (value / 36) ++ [digitChar (value % 36)]

def fingerprint (text : String) : String :=
  String.ofList (base36 (digest text.toList).toNat)

end DesignTokens.Text

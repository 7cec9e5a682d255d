import DesignTokens.Css.Character
import DesignTokens.Toml.Character

/-!
Strings of TOML. A string is first cut out of the text and then decoded, in one line or over
several. Over several lines a backslash at the end of a line drops all white space after it.
-/

namespace DesignTokens.Toml

def escapedChar? (c : Char) : Option Char :=
  match c with
  | '"' => some '"'
  | '\\' => some '\\'
  | 'b' => some '\x08'
  | 't' => some '\t'
  | 'n' => some '\n'
  | 'f' => some '\x0c'
  | 'r' => some '\r'
  | _ => none

def hexChar? (digits : List Char) : Option Char :=
  let code := Css.readHex digits
  if digits.all Css.isHexDigit && (code < 0xd800 || (0xdfff < code && code < 0x110000)) then
    some (Char.ofNat code)
  else
    none

inductive Trimming where
  | off
  | seeking
  | on
  deriving DecidableEq, Repr

def decode? (trimming : Trimming) : List Char → Option (List Char)
  | [] => if trimming = .seeking then none else some []
  | '\r' :: '\n' :: rest =>
    if trimming = .off then (decode? .off rest).map ('\n' :: ·) else decode? .on rest
  | c :: rest =>
    if c = '\n' then
      if trimming = .off then (decode? .off rest).map ('\n' :: ·) else decode? .on rest
    else if isSpace c && trimming ≠ .off then decode? trimming rest
    else if trimming = .seeking then none
    else if c = '\\' then
      match rest with
      | 'u' :: a :: b :: c :: d :: after =>
        match hexChar? [a, b, c, d] with
        | some meant => (decode? .off after).map (meant :: ·)
        | none => none
      | 'U' :: a :: b :: c :: d :: e :: f :: g :: h :: after =>
        match hexChar? [a, b, c, d, e, f, g, h] with
        | some meant => (decode? .off after).map (meant :: ·)
        | none => none
      | mark :: after =>
        match escapedChar? mark with
        | some meant => (decode? .off after).map (meant :: ·)
        | none => decode? .seeking (mark :: after)
      | [] => none
    else if isPrintable c then (decode? .off rest).map (c :: ·)
    else none

def decodeLiteral? : List Char → Option (List Char)
  | [] => some []
  | '\r' :: '\n' :: rest => (decodeLiteral? rest).map ('\n' :: ·)
  | c :: rest =>
    if c = '\n' || isPrintable c then (decodeLiteral? rest).map (c :: ·) else none

/-- Cuts out the inside of a string of one line after its opening quote. With `escapes`, a
backslash guards the character after it. -/
def insideLine? (quote : Char) (escapes : Bool) : List Char → Option (List Char × List Char)
  | [] => none
  | c :: rest =>
    if c = quote then some ([], rest)
    else if c = '\n' then none
    else if escapes && c = '\\' then
      match rest with
      | [] => none
      | guarded :: after =>
        (insideLine? quote escapes after).map fun (inside, text) => (c :: guarded :: inside, text)
    else
      (insideLine? quote escapes rest).map fun (inside, text) => (c :: inside, text)

/-- Cuts out the inside of a string of several lines after its three opening quotes. Of the quotes
at its end the last three close it, and up to two before them belong to it. -/
def insideLines? (quote : Char) (escapes : Bool) : List Char → Option (List Char × List Char)
  | [] => none
  | c :: rest =>
    if c = quote && rest.take 2 = [quote, quote] then
      let extra := ((rest.drop 2).take 2).takeWhile (· = quote)
      some (extra, rest.drop (2 + extra.length))
    else if escapes && c = '\\' then
      match rest with
      | [] => none
      | guarded :: after =>
        (insideLines? quote escapes after).map fun (inside, text) => (c :: guarded :: inside, text)
    else
      (insideLines? quote escapes rest).map fun (inside, text) => (c :: inside, text)

def dropFirstNewline (text : List Char) : List Char :=
  (newline? text).getD text

def lineString? : List Char → Option (String × List Char)
  | '"' :: rest => do
    let (inside, after) ← insideLine? '"' true rest
    if inside.contains '\n' then none
    return (String.ofList (← decode? .off inside), after)
  | '\'' :: rest => do
    let (inside, after) ← insideLine? '\'' false rest
    return (String.ofList (← decodeLiteral? inside), after)
  | _ => none

def string? : List Char → Option (String × List Char)
  | '"' :: '"' :: '"' :: rest => do
    let (inside, after) ← insideLines? '"' true (dropFirstNewline rest)
    return (String.ofList (← decode? .off inside), after)
  | '\'' :: '\'' :: '\'' :: rest => do
    let (inside, after) ← insideLines? '\'' false (dropFirstNewline rest)
    return (String.ofList (← decodeLiteral? inside), after)
  | text => lineString? text

def key? (text : List Char) : Option (String × List Char) :=
  match lineString? text with
  | some read => some read
  | none =>
    let bare := text.takeWhile isBareKeyChar
    if bare.isEmpty then none else some (String.ofList bare, text.dropWhile isBareKeyChar)

/-- Dotted keys have to be shorter than this. -/
def keyLimit : Nat := 80

def dottedKey? (limit : Nat) (text : List Char) : Option (List String × List Char) :=
  match limit with
  | 0 => none
  | limit + 1 => do
    let (first, afterFirst) ← key? (dropSpaces text)
    match dropSpaces afterFirst with
    | '.' :: rest =>
      let (others, after) ← dottedKey? limit rest
      return (first :: others, after)
    | rest => return ([first], rest)

def keyPath? (text : List Char) : Option (List String × List Char) :=
  dottedKey? (keyLimit - 1) text

end DesignTokens.Toml

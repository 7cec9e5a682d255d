/-!
Characters, line ends and comments of TOML.
-/

namespace DesignTokens.Toml

def isSpace (c : Char) : Bool :=
  c = ' ' || c = '\t'

/-- Characters that may stand in comments and strings: a tab and all that are no control
characters. -/
def isPrintable (c : Char) : Bool :=
  c = '\t' || (0x20 ≤ c.toNat && c.toNat ≠ 0x7f)

def isBareKeyChar (c : Char) : Bool :=
  c.isAlphanum || c = '_' || c = '-'

def dropSpaces (text : List Char) : List Char :=
  text.dropWhile isSpace

def newline? : List Char → Option (List Char)
  | '\n' :: rest => some rest
  | '\r' :: '\n' :: rest => some rest
  | _ => none

def dropComment : List Char → List Char
  | '#' :: rest => rest.dropWhile isPrintable
  | text => text

def finishLine? (text : List Char) : Option (List Char) :=
  match dropComment (dropSpaces text) with
  | [] => some []
  | rest => newline? rest

def dropBlank? (inComment : Bool) : List Char → Option (List Char)
  | [] => some []
  | '\r' :: '\n' :: rest => dropBlank? false rest
  | c :: rest =>
    if c = '\n' then dropBlank? false rest
    else if inComment then if isPrintable c then dropBlank? true rest else none
    else if c = '#' then dropBlank? true rest
    else if isSpace c then dropBlank? false rest
    else some (c :: rest)

end DesignTokens.Toml

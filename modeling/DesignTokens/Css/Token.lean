import DesignTokens.Css.Numeral
import DesignTokens.Text.Span

/-!
Tokens of CSS, and lexemes: a token together with the text it was read from and where that text
starts.
-/

namespace DesignTokens.Css

open DesignTokens.Text DesignTokens.Number

inductive Bracket where
  | round
  | square
  | curly
  deriving DecidableEq, Repr

inductive Token where
  | ident (name : String)
  | function (name : String)
  | atKeyword (name : String)
  | hash (name : String)
  | quoted (text : String)
  | url (text : String)
  | number (numeral : Numeral)
  | percentage (numeral : Numeral)
  | dimension (numeral : Numeral) (unit : String)
  | space
  | comment
  | colon
  | semicolon
  | comma
  | opening (bracket : Bracket)
  | closing (bracket : Bracket)
  | delimiter (c : Char)
  | unclassified
  deriving DecidableEq, Repr

namespace Token

def isTrivia : Token → Bool
  | .space | .comment => true
  | _ => false

def opens : Token → Option Bracket
  | .function _ => some .round
  | .opening bracket => some bracket
  | _ => none

def closes : Token → Option Bracket
  | .closing bracket => some bracket
  | _ => none

end Token

structure Lexeme where
  token : Token
  text : List Char
  start : Nat
  deriving DecidableEq, Repr

namespace Lexeme

def stop (lexeme : Lexeme) : Nat :=
  lexeme.start + byteLength lexeme.text

def span (lexeme : Lexeme) : Span :=
  ⟨lexeme.start, lexeme.stop⟩

end Lexeme

end DesignTokens.Css

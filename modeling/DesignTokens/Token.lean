import DesignTokens.Text.Digest
import DesignTokens.TokenPath
import DesignTokens.Value

/-!
Design tokens: a path and a value as it was written.
-/

namespace DesignTokens

open DesignTokens.Text

structure Token where
  path : TokenPath
  raw : String
  deriving DecidableEq, Repr, Inhabited

namespace Token

def values (token : Token) : List Value :=
  parseValues .recorded token.raw

def isSingle (token : Token) : Bool :=
  token.values.length = 1

def isColor (token : Token) : Bool :=
  match token.values with
  | [value] => value.isColor
  | _ => false

/-- A text that changes with the path and, collisions apart, with the value. -/
def key (token : Token) : String :=
  token.path.dotPath ++ ":" ++ fingerprint token.raw

end Token

end DesignTokens

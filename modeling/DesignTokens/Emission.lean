import DesignTokens.Resolution

/-!
Resolved tokens as custom properties of the root element.
-/

namespace DesignTokens

inductive EmissionStyle where
  | pretty
  | minified
  deriving DecidableEq, Repr

def ResolvedToken.declaration (style : EmissionStyle) (token : ResolvedToken) : String :=
  let separator := match style with
    | .pretty => ": "
    | .minified => ":"
  token.path.cssVariable ++ separator ++ token.valueText ++ ";"

/-- One declaration per token, in order; without tokens there is no style sheet. -/
def emit (style : EmissionStyle) (tokens : List ResolvedToken) : Option String :=
  if tokens.isEmpty then none
  else
    let declarations := tokens.map (ResolvedToken.declaration style)
    match style with
    | .minified => some (":root\x7b" ++ joinWith [] declarations ++ "\x7d")
    | .pretty =>
      some (":root \x7b\n" ++ joinWith ['\n'] (declarations.map ("  " ++ ·)) ++ "\n\x7d")

end DesignTokens

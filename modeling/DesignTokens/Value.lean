import DesignTokens.Css.Tree
import DesignTokens.Value.Color
import DesignTokens.Value.Modifier

/-!
Components of a token's value: colors, lengths, separators and all else. A modifier applies to
colors and lengths only.
-/

namespace DesignTokens

open DesignTokens.Css DesignTokens.Number DesignTokens.Text

/-- Each component keeps the text it was read from. -/
inductive Value where
  | color (source : String) (form : ColorForm) (color : Color)
  | absolute (source : String) (pixels : Float)
  | relative (source : String) (amount : Float) (unit : String)
  | separator (source : String)
  | raw (source : String)

namespace Value

def source : Value → String
  | .color source _ _ | .absolute source _ | .relative source _ _ | .separator source
  | .raw source => source

def isColor : Value → Bool
  | .color _ _ _ => true
  | _ => false

/-- Lengths that are relative to the root element. Their unit is kept in lower case. -/
def ofRelative (source : String) (amount : Float) (unit : String) : Value :=
  .relative source amount (lowerCase unit)

def rootRelativeUnits : List String :=
  ["rcap", "rch", "rem", "rex", "ric", "rlh"]

def ofDimension (source : String) (amount : Float) (unit : String) : Value :=
  if lowerCase unit = "px" then .absolute source amount
  else if rootRelativeUnits.contains (lowerCase unit) then ofRelative source amount unit
  else .raw source

def ofNode (source : String) : Node → Value
  | .leaf (.hash digits) _ =>
    match Color.ofHex? digits with
    | some found => .color ("#" ++ digits) .hex found
    | none => .raw source
  | .function name arguments _ =>
    match Color.ofFunction? name arguments with
    | some found => .color source .other found
    | none => .raw source
  | .leaf (.ident name) _ =>
    match Color.ofName? name with
    | some found => .color name .other found
    | none => .raw source
  | .leaf (.dimension amount unit) _ => ofDimension source amount unit
  | .leaf (.operator symbol) _ => if symbol = "," then .separator symbol else .raw source
  | _ => .raw source

/-- The text after a modifier, or nothing if it does not apply to such a component. Root relative
lengths other than `rem` have no known size in pixels. -/
def apply (rootFontSize : Float) (modifier : Modifier) : Value → Option String
  | .color _ form found =>
    match modifier with
    | .alpha value => some ((found.withAlpha value).text form)
    | _ => none
  | .absolute source pixels =>
    match modifier with
    | .convert .px => some source
    | .convert .rem => some (cssText (pixels / rootFontSize) ++ "rem")
    | .negate => some (cssText (-pixels) ++ "px")
    | .alpha _ => none
  | .relative source amount unit =>
    match modifier with
    | .convert target =>
      if target.name = unit then some source
      else if target = .px && unit = "rem" then some (cssText (amount * rootFontSize) ++ "px")
      else none
    | .negate => some (cssText (-amount) ++ unit)
    | .alpha _ => none
  | .separator _ | .raw _ => none

end Value

/-- The components of a value. A node without a span takes the whole text as its source. -/
def parseValues (positions : Positions) (text : String) : List Value :=
  (parseValue positions text).map fun node =>
    Value.ofNode (((node.text text.toList).map String.ofList).getD text) node

end DesignTokens

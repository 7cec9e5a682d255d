import DesignTokens.Css.Character
import DesignTokens.Css.Node
import DesignTokens.Number.Layout
import DesignTokens.Text.Blank
import DesignTokens.Value.NamedColor

/-!
Colors in the space they are written in, how they are read from hexadecimal digits, names and
function arguments, and how they are written.
-/

namespace DesignTokens

open DesignTokens.Number DesignTokens.Css DesignTokens.Text

/-- A color without an opacity is opaque. -/
inductive Color where
  /-- Red, green and blue as fractions. -/
  | rgb (red green blue : Float) (alpha : Option Float)
  /-- The hue in degrees, saturation and lightness as fractions. -/
  | hsl (hue saturation lightness : Float) (alpha : Option Float)

/-- The channels of a color on screen, each a fraction. -/
structure Swatch where
  red : Float
  green : Float
  blue : Float
  alpha : Float

namespace Color

def alpha : Color → Option Float
  | .rgb _ _ _ alpha | .hsl _ _ _ alpha => alpha

def withAlpha (color : Color) (value : Float) : Color :=
  match color with
  | .rgb red green blue _ => .rgb red green blue (some (clampUnit value))
  | .hsl hue saturation lightness _ => .hsl hue saturation lightness (some (clampUnit value))

def isOpaque (color : Color) : Bool :=
  match color.alpha with
  | none => true
  | some value => 1.0 ≤ value

def byteFraction (byte : Nat) : Float :=
  Float.ofNat byte / 255.0

def ofBytes (red green blue : Nat) : Color :=
  .rgb (byteFraction red) (byteFraction green) (byteFraction blue) none

def pairedBytes : List Char → List Nat
  | high :: low :: rest => (16 * hexValue high + hexValue low) :: pairedBytes rest
  | _ => []

/-- In the short form each digit stands for itself twice. -/
def hexBytes (digits : List Char) : List Nat :=
  if digits.length ≤ 4 then digits.map (17 * hexValue ·) else pairedBytes digits

def ofHex? (text : String) : Option Color :=
  let digits := match text.toList with
    | '#' :: rest => rest
    | digits => digits
  if digits.all isHexDigit && [3, 4, 6, 8].contains digits.length then
    match hexBytes digits with
    | [red, green, blue] => some (ofBytes red green blue)
    | [red, green, blue, alpha] =>
      some (.rgb (byteFraction red) (byteFraction green) (byteFraction blue)
        (some (byteFraction alpha)))
    | _ => none
  else
    none

def ofName? (name : String) : Option Color :=
  if lowerCase name = "transparent" then some (.rgb 0.0 0.0 0.0 (some 0.0))
  else
    (namedColor? (lowerCase name)).map fun bytes =>
      ofBytes (bytes / 0x10000) (bytes / 0x100 % 0x100) (bytes % 0x100)

def rgbChannel? : Leaf → Option Float
  | .number value => some (value / 255.0)
  | .percentage value => some (value / 100.0)
  | _ => none

def fractionChannel? : Leaf → Option Float
  | .number value | .percentage value => some (value / 100.0)
  | _ => none

def alphaChannel? : Leaf → Option Float
  | .number value => some (clampUnit value)
  | .percentage value => some (clampUnit (value / 100.0))
  | _ => none

def degreesPerRadian : Float := 57.29577951308232

def hueChannel? : Leaf → Option Float
  | .number value => some value
  | .dimension value unit =>
    let unit := lowerCase unit
    if unit = "deg" then some value
    else if unit = "rad" then some (value * degreesPerRadian)
    else if unit = "grad" then some (value * 0.9)
    else if unit = "turn" then some (value * 360.0)
    else none
  | _ => none

def isNumeric : Leaf → Bool
  | .number _ | .percentage _ | .dimension _ _ => true
  | _ => false

structure Arguments where
  channels : List Leaf
  alpha : Option Float
  afterSlash : Bool

/-- Commas separate, a slash comes before the opacity, and all else has to be a number. -/
def Arguments.add (arguments : Arguments) : Node → Option Arguments
  | .leaf leaf _ =>
    match leaf with
    | .operator symbol =>
      if symbol = "," then some arguments
      else if symbol = "/" then some { arguments with afterSlash := true }
      else none
    | leaf =>
      if !isNumeric leaf then none
      else if arguments.afterSlash then
        (alphaChannel? leaf).map fun value => { arguments with alpha := some value }
      else
        some { arguments with channels := arguments.channels ++ [leaf] }
  | _ => none

def readArguments (nodes : List Node) : Option Arguments :=
  nodes.foldlM Arguments.add ⟨[], none, false⟩

/-- Without an opacity after a slash, a fourth channel is the opacity. -/
def Arguments.split (arguments : Arguments) : List Leaf × Option Float :=
  match arguments.channels, arguments.alpha with
  | [first, second, third, fourth], none => ([first, second, third], alphaChannel? fourth)
  | channels, alpha => (channels, alpha)

def ofFunction? (name : String) (nodes : List Node) : Option Color := do
  let arguments ← readArguments nodes
  match arguments.split with
  | ([first, second, third], alpha) =>
    let name := lowerCase name
    if name = "rgb" || name = "rgba" then
      return .rgb (← rgbChannel? first) (← rgbChannel? second) (← rgbChannel? third) alpha
    else if name = "hsl" || name = "hsla" then
      return .hsl (← hueChannel? first) (← fractionChannel? second) (← fractionChannel? third)
        alpha
    else
      none
  | _ => none

def rgbOfHsl (hue saturation lightness : Float) : Float × Float × Float :=
  let hue := modulo hue 360.0
  let chroma := (1.0 - (2.0 * lightness - 1.0).abs) * saturation
  let second := chroma * (1.0 - (remainder (hue / 60.0) 2.0 - 1.0).abs)
  let least := lightness - chroma / 2.0
  let (red, green, blue) :=
    if hue < 60.0 then (chroma, second, 0.0)
    else if hue < 120.0 then (second, chroma, 0.0)
    else if hue < 180.0 then (0.0, chroma, second)
    else if hue < 240.0 then (0.0, second, chroma)
    else if hue < 300.0 then (second, 0.0, chroma)
    else (chroma, 0.0, second)
  (red + least, green + least, blue + least)

def swatch (color : Color) : Swatch :=
  let (red, green, blue) := match color with
    | .rgb red green blue _ => (red, green, blue)
    | .hsl hue saturation lightness _ => rgbOfHsl hue saturation lightness
  ⟨clampUnit red, clampUnit green, clampUnit blue, clampUnit (color.alpha.getD 1.0)⟩

/-- The nearest byte; what is no number counts as zero. -/
def toByte (channel : Float) : Nat :=
  (roundWhole (clampUnit channel * 255.0)).toUInt8.toNat

def hexDigit (digit : Nat) : Char :=
  if digit < 10 then Char.ofNat (0x30 + digit) else Char.ofNat (0x57 + digit)

def hexPair (byte : Nat) : List Char :=
  [hexDigit (byte / 16), hexDigit (byte % 16)]

/-- Two digits per channel; the opacity is written only if the color is not opaque. -/
def hexText (color : Color) : String :=
  let swatch := color.swatch
  let alpha := if color.isOpaque then [] else hexPair (toByte swatch.alpha)
  String.ofList ('#' :: hexPair (toByte swatch.red) ++ hexPair (toByte swatch.green)
    ++ hexPair (toByte swatch.blue) ++ alpha)

def rgbText (color : Color) : String :=
  let swatch := color.swatch
  let channels := toString (toByte swatch.red) ++ ", " ++ toString (toByte swatch.green) ++ ", "
    ++ toString (toByte swatch.blue)
  if color.isOpaque then "rgb(" ++ channels ++ ")"
  else "rgba(" ++ channels ++ ", " ++ cssText (roundPlaces swatch.alpha 1000.0) ++ ")"

def functionText : Color → String
  | .hsl hue saturation lightness alpha =>
    let body := cssText (roundPlaces hue 100.0) ++ " "
      ++ cssText (roundPlaces (saturation * 100.0) 100.0) ++ "% "
      ++ cssText (roundPlaces (lightness * 100.0) 100.0) ++ "%"
    let opacity := match alpha with
      | some value =>
        if value < 1.0 then " / " ++ cssText (roundPlaces value 1000.0) else ""
      | none => ""
    "hsl(" ++ body ++ opacity ++ ")"
  | color => color.rgbText

end Color

inductive ColorForm where
  | hex
  | other
  deriving DecidableEq, Repr

def Color.text (form : ColorForm) (color : Color) : String :=
  match form with
  | .hex => color.hexText
  | .other => color.functionText

end DesignTokens

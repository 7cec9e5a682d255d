import DesignTokens.Emission
import Mathlib.Data.List.Basic

/-!
The text of an emitted style sheet as a sequence of custom properties. Both styles write the same
parts in the same order, and they differ only in the white space between them.
-/

namespace DesignTokens

structure Property where
  name : String
  value : String
  deriving DecidableEq, Repr

def ResolvedToken.property (token : ResolvedToken) : Property :=
  ⟨token.path.cssVariable, token.valueText⟩

namespace EmissionStyle

def lead : EmissionStyle → List Char
  | .pretty => ['\n', ' ', ' ']
  | .minified => []

def gap : EmissionStyle → List Char
  | .pretty => [' ']
  | .minified => []

def tail : EmissionStyle → List Char
  | .pretty => ['\n']
  | .minified => []

end EmissionStyle

def Property.text (style : EmissionStyle) (property : Property) : List Char :=
  style.lead ++ property.name.toList ++ ':' :: (style.gap ++ property.value.toList) ++ [';']

def sheetText (style : EmissionStyle) (properties : List Property) : List Char :=
  ":root".toList ++ style.gap ++ '{' :: (properties.flatMap (Property.text style) ++ style.tail) ++
    ['}']

-- Stated by hand: the equation Lean derives for the definition evaluates its text.
theorem sheetText_eq (style : EmissionStyle) (properties : List Property) :
    sheetText style properties = ":root".toList ++ style.gap ++
      '{' :: (properties.flatMap (Property.text style) ++ style.tail) ++ ['}'] := rfl

/-- The style sheet that declares the properties, if there are any. -/
def sheet (style : EmissionStyle) (properties : List Property) : Option String :=
  if properties.isEmpty then none else some (String.ofList (sheetText style properties))

theorem append_intercalate {α : Type} (separator : List α) {texts : List (List α)}
    (some : texts ≠ []) :
    separator ++ separator.intercalate texts = texts.flatMap (separator ++ ·) := by
  induction texts with
  | nil => contradiction
  | cons first rest ih =>
    cases rest with
    | nil => simp
    | cons next rest =>
      rw [List.intercalate_cons_cons, List.flatMap_cons, ← ih (List.cons_ne_nil _ _)]
      simp

/-- The declarations as they are joined, each with what stands before it. -/
theorem joined_declarations (style : EmissionStyle) (separator indent : List Char)
    (lead : separator ++ indent = style.lead) {tokens : List ResolvedToken}
    (some : tokens ≠ []) :
    separator ++ separator.intercalate
        (tokens.map fun token => indent ++ (token.declaration style).toList) =
      (tokens.map ResolvedToken.property).flatMap (Property.text style) := by
  rw [append_intercalate separator (by simpa using some), List.flatMap_map, List.flatMap_map]
  refine List.flatMap_congr fun token _ => ?_
  rw [← List.append_assoc, lead]
  cases style <;>
    simp [ResolvedToken.declaration, ResolvedToken.property, Property.text, EmissionStyle.gap]

/-- A style sheet holds the properties of its tokens and nothing else. -/
theorem emit_eq_sheet (style : EmissionStyle) (tokens : List ResolvedToken) :
    emit style tokens = sheet style (tokens.map ResolvedToken.property) := by
  cases tokens with
  | nil => rfl
  | cons first rest =>
    have filled : first :: rest ≠ [] := List.cons_ne_nil _ _
    cases style with
    | minified =>
      have parts := joined_declarations .minified [] [] rfl filled
      refine Option.some_inj.2 (String.toList_injective ?_)
      rw [sheetText_eq, ← parts]
      simp [joinWith, EmissionStyle.gap, EmissionStyle.tail, Function.comp_def]
    | pretty =>
      have parts := joined_declarations .pretty ['\n'] [' ', ' '] rfl filled
      refine Option.some_inj.2 (String.toList_injective ?_)
      rw [sheetText_eq, ← parts]
      simp [joinWith, EmissionStyle.gap, EmissionStyle.tail, Function.comp_def]

def Token.property (token : Token) : Property :=
  ⟨token.path.cssVariable, token.raw⟩

theorem property_resolveAs {call : Call} (plain : call.modifier = none) (rootFontSize : Float)
    (token : Token) : (call.resolveAs rootFontSize token).1.property = token.property := by
  simp [Call.resolveAs, plain, ResolvedToken.property, ResolvedToken.valueText, joinWith,
    Token.property]

theorem properties_resolveAll (config : Config) :
    (resolveAll config).1.map ResolvedToken.property = config.tokens.map Token.property := by
  rw [resolveAll, List.map_map, List.map_map]
  exact List.map_congr_left fun token _ => property_resolveAs rfl config.rootFontSize token

end DesignTokens

import DesignTokens.Value.Color
import Mathlib.Data.List.Basic

/-!
Arguments of color functions. The opacity is written after a third comma or after a slash. Both
forms are read as the same color unless the opacity is a number with a unit: after a slash the text
is then no color, but after a comma the number is passed over and the color is opaque.
-/

namespace DesignTokens

open DesignTokens.Css DesignTokens.Text

def Css.Node.isDimension : Node → Bool
  | .leaf (.dimension _ _) _ => true
  | _ => false

namespace Color

def mark (symbol : String) (place : Option Span) : Node :=
  .leaf (.operator symbol) place

def commaForm (first second third opacity : Node) (comma comma' comma'' : Option Span) :
    List Node :=
  [first, mark "," comma, second, mark "," comma', third, mark "," comma'', opacity]

def slashForm (first second third opacity : Node) (slash : Option Span) : List Node :=
  [first, second, third] ++ [mark "/" slash, opacity]

/-- What an argument counts as: a number with or without a unit, or a percentage. -/
def channel? : Node → Option Leaf
  | .leaf leaf _ => if isNumeric leaf then some leaf else none
  | _ => none

/-! One step of the reading. -/

/-- A number is a channel before a slash, and the opacity after it. -/
def Arguments.put (arguments : Arguments) (leaf : Leaf) : Option Arguments :=
  if arguments.afterSlash then
    (alphaChannel? leaf).map fun value => { arguments with alpha := some value }
  else
    some { arguments with channels := arguments.channels ++ [leaf] }

theorem add_comma (arguments : Arguments) (place : Option Span) :
    arguments.add (mark "," place) = some arguments :=
  rfl

theorem add_slash (arguments : Arguments) (place : Option Span) :
    arguments.add (mark "/" place) = some { arguments with afterSlash := true } :=
  rfl

theorem add_plain (arguments : Arguments) {node : Node} (plain : node.isOperator = false) :
    arguments.add node = (channel? node).bind arguments.put := by
  cases node with
  | leaf leaf place =>
    cases leaf with
    | operator symbol => contradiction
    | number value => rfl
    | percentage value => rfl
    | dimension value unit => rfl
    | quoted text => rfl
    | ident name => rfl
    | hash name => rfl
    | raw text => rfl
    | url text => rfl
    | other text => rfl
  | function name children place => rfl
  | block bracket children place => rfl
  | atRule name prelude block place => rfl

/-! Runs of arguments before a slash. -/

def Separated (nodes : List Node) : Prop :=
  ∀ node ∈ nodes, node.isOperator = true → ∃ place, node = mark "," place

def channels? (nodes : List Node) : Option (List Leaf) :=
  (nodes.filter fun node => !node.isOperator).mapM channel?

@[simp] theorem isOperator_mark (symbol : String) (place : Option Span) :
    (mark symbol place).isOperator = true :=
  rfl

theorem channels?_operator {node : Node} (operator : node.isOperator = true) (rest : List Node) :
    channels? (node :: rest) = channels? rest := by
  rw [channels?, List.filter_cons_of_neg (by simp [operator])]
  rfl

theorem channels?_plain {node : Node} (plain : node.isOperator = false) (rest : List Node) :
    channels? (node :: rest) = (channel? node).bind fun leaf =>
      (channels? rest).bind fun leaves => some (leaf :: leaves) := by
  rw [channels?, List.filter_cons_of_pos (by simp [plain]), List.mapM_cons]
  rfl

theorem foldlM_add {nodes : List Node} (separated : Separated nodes) (arguments : Arguments)
    (before : arguments.afterSlash = false) :
    nodes.foldlM Arguments.add arguments = (channels? nodes).bind fun leaves =>
      some { arguments with channels := arguments.channels ++ leaves } := by
  induction nodes generalizing arguments with
  | nil => simp [channels?]
  | cons node rest ih =>
    have others : Separated rest := fun other member =>
      separated other (List.mem_cons_of_mem node member)
    rw [List.foldlM_cons]
    cases operator : node.isOperator with
    | true =>
      obtain ⟨place, same⟩ := separated node List.mem_cons_self operator
      rw [channels?_operator operator, same, add_comma]
      exact ih others arguments before
    | false =>
      rw [add_plain arguments operator, channels?_plain operator]
      cases channel? node with
      | none => rfl
      | some leaf =>
        have put : arguments.put leaf =
            some { arguments with channels := arguments.channels ++ [leaf] } := by
          rw [Arguments.put, before]
          rfl
        have run := ih others { arguments with channels := arguments.channels ++ [leaf] } before
        simpa [put, Option.bind_assoc] using run

theorem readArguments_separated {nodes : List Node} (separated : Separated nodes) :
    readArguments nodes = (channels? nodes).bind fun leaves => some ⟨leaves, none, false⟩ :=
  foldlM_add separated ⟨[], none, false⟩ rfl

theorem eq_dimension {node : Node} (dimension : node.isDimension = true) :
    ∃ value unit place, node = .leaf (.dimension value unit) place := by
  unfold Node.isDimension at dimension
  split at dimension
  · exact ⟨_, _, _, rfl⟩
  · contradiction

/-- Every number without a unit is an opacity. -/
theorem alphaChannel?_of_channel? {node : Node} {leaf : Leaf} (counts : channel? node = some leaf)
    (plain : node.isDimension = false) : ∃ value, alphaChannel? leaf = some value := by
  cases node with
  | leaf own place =>
    rw [channel?] at counts
    split at counts
    · rename_i numeric
      cases counts
      cases leaf with
      | number value => exact ⟨_, rfl⟩
      | percentage value => exact ⟨_, rfl⟩
      | dimension value unit => contradiction
      | operator symbol => contradiction
      | quoted text => contradiction
      | ident name => contradiction
      | hash name => contradiction
      | raw text => contradiction
      | url text => contradiction
      | other text => contradiction
    · contradiction
  | function name children place => contradiction
  | block bracket children place => contradiction
  | atRule name prelude block place => contradiction

theorem ofFunction?_eq_none (name : String) {nodes : List Node}
    (unread : readArguments nodes = none) : ofFunction? name nodes = none := by
  rw [ofFunction?, unread]
  rfl

theorem ofFunction?_congr (name : String) {left right : List Node}
    (same : (readArguments left).map Arguments.split = (readArguments right).map Arguments.split) :
    ofFunction? name left = ofFunction? name right := by
  unfold ofFunction?
  cases one : readArguments left with
  | none =>
    cases other : readArguments right with
    | none => rfl
    | some arguments =>
      rw [one, other] at same
      cases same
  | some arguments =>
    cases other : readArguments right with
    | none =>
      rw [one, other] at same
      cases same
    | some arguments' =>
      rw [one, other, Option.map_some, Option.map_some] at same
      simp only [Option.bind_eq_bind, Option.bind_some, Option.some.inj same]

/-! The two forms. -/

section

variable {first second third opacity : Node}
  (plain : ∀ node ∈ [first, second, third, opacity], node.isOperator = false)
include plain

theorem separated_three : Separated [first, second, third] := by
  intro node member operator
  have front : node ∈ [first, second, third, opacity] := List.mem_append_left [opacity] member
  rw [plain node front] at operator
  contradiction

theorem separated_commaForm (comma comma' comma'' : Option Span) :
    Separated (commaForm first second third opacity comma comma' comma'') := by
  intro node member operator
  by_cases argument : node ∈ [first, second, third, opacity]
  · rw [plain node argument] at operator
    contradiction
  · simp only [commaForm, List.mem_cons, List.not_mem_nil, or_false] at member argument
    grind

theorem readArguments_commaForm (comma comma' comma'' : Option Span) :
    readArguments (commaForm first second third opacity comma comma' comma'') =
      (channels? [first, second, third]).bind fun leaves =>
        (channel? opacity).bind fun leaf => some ⟨leaves ++ [leaf], none, false⟩ := by
  rw [readArguments_separated (separated_commaForm plain comma comma' comma''), commaForm]
  simp only [List.forall_mem_cons] at plain
  obtain ⟨one, two, three, four, _⟩ := plain
  simp only [channels?_plain one, channels?_plain two, channels?_plain three, channels?_plain four,
    channels?_operator (isOperator_mark _ _), Option.bind_assoc]
  rfl

theorem readArguments_slashForm (slash : Option Span) :
    readArguments (slashForm first second third opacity slash) =
      (channels? [first, second, third]).bind fun leaves =>
        ((channel? opacity).bind alphaChannel?).bind fun value =>
          some ⟨leaves, some value, true⟩ := by
  have three := readArguments_separated (separated_three plain)
  have last : opacity.isOperator = false := plain opacity (by simp)
  rw [readArguments] at three
  rw [readArguments, slashForm, List.foldlM_append, three]
  cases channels? [first, second, third] with
  | none => rfl
  | some leaves =>
    change [mark "/" slash, opacity].foldlM Arguments.add ⟨leaves, none, false⟩ = _
    rw [List.foldlM_cons, add_slash]
    change [opacity].foldlM Arguments.add ⟨leaves, none, true⟩ = _
    rw [List.foldlM_cons, add_plain _ last]
    cases channel? opacity with
    | none => rfl
    | some leaf =>
      change ((alphaChannel? leaf).map _).bind _ = (alphaChannel? leaf).bind _
      cases alphaChannel? leaf with
      | none => rfl
      | some value => rfl

theorem length_channels? {leaves : List Leaf}
    (read : channels? [first, second, third] = some leaves) :
    ∃ one two three, leaves = [one, two, three] := by
  simp only [List.forall_mem_cons] at plain
  rw [channels?_plain plain.1, channels?_plain plain.2.1, channels?_plain plain.2.2.1] at read
  simp only [Option.bind_eq_some_iff, Option.some.injEq] at read
  grind [channels?]

/-- An opacity that is no dimension is read the same after a comma and after a slash. -/
theorem ofFunction?_forms (name : String) (other : opacity.isDimension = false)
    (comma comma' comma'' slash : Option Span) :
    ofFunction? name (commaForm first second third opacity comma comma' comma'') =
      ofFunction? name (slashForm first second third opacity slash) := by
  apply ofFunction?_congr
  rw [readArguments_commaForm plain, readArguments_slashForm plain]
  cases read : channels? [first, second, third] with
  | none => rfl
  | some leaves =>
    obtain ⟨one, two, three, same⟩ := length_channels? plain read
    cases counts : channel? opacity with
    | none => rfl
    | some leaf =>
      obtain ⟨value, found⟩ := alphaChannel?_of_channel? counts other
      simp [same, found, Arguments.split]

theorem ofFunction?_commaForm (name : String) (dimension : opacity.isDimension = true)
    (comma comma' comma'' : Option Span) :
    ofFunction? name (commaForm first second third opacity comma comma' comma'') =
      ofFunction? name [first, second, third] := by
  apply ofFunction?_congr
  rw [readArguments_commaForm plain, readArguments_separated (separated_three plain)]
  obtain ⟨value, unit, place, written⟩ := eq_dimension dimension
  cases read : channels? [first, second, third] with
  | none => rfl
  | some leaves =>
    obtain ⟨one, two, three, same⟩ := length_channels? plain read
    rw [same, written]
    rfl

theorem ofFunction?_slashForm (name : String) (dimension : opacity.isDimension = true)
    (slash : Option Span) :
    ofFunction? name (slashForm first second third opacity slash) = none := by
  apply ofFunction?_eq_none
  rw [readArguments_slashForm plain]
  obtain ⟨value, unit, place, written⟩ := eq_dimension dimension
  cases channels? [first, second, third] with
  | none => rfl
  | some leaves =>
    rw [written]
    rfl

end

/-- The comma form and the slash form of four arguments are the same color, or both none, unless the
opacity is a dimension behind three channels of a color. That color is then read from the comma form
without an opacity, and the slash form is no color. -/
theorem comma_form_agrees_iff (name : String) {first second third opacity : Node}
    (plain : ∀ node ∈ [first, second, third, opacity], node.isOperator = false)
    (comma comma' comma'' slash : Option Span) :
    (ofFunction? name (commaForm first second third opacity comma comma' comma'') =
        ofFunction? name (slashForm first second third opacity slash) ↔
      (opacity.isDimension = true → ofFunction? name [first, second, third] = none)) ∧
    (opacity.isDimension = true →
      ofFunction? name (commaForm first second third opacity comma comma' comma'') =
          ofFunction? name [first, second, third] ∧
        ofFunction? name (slashForm first second third opacity slash) = none) := by
  cases kind : opacity.isDimension with
  | true =>
    rw [ofFunction?_commaForm plain name kind, ofFunction?_slashForm plain name kind]
    simp
  | false =>
    rw [ofFunction?_forms plain name kind comma comma' comma'' slash]
    simp

/-- Percentages and an angle, with an opacity in percent. -/
theorem percent_forms_agree :
    ofFunction? "HSLA" (commaForm (.leaf (.dimension 0.5 "turn") none) (.leaf (.percentage 50) none)
        (.leaf (.percentage 25) none) (.leaf (.percentage 40) none) none none none) =
      ofFunction? "HSLA" (slashForm (.leaf (.dimension 0.5 "turn") none)
        (.leaf (.percentage 50) none) (.leaf (.percentage 25) none) (.leaf (.percentage 40) none)
        none) :=
  (comma_form_agrees_iff "HSLA" (by decide) none none none none).1.2 (by decide)

/-- An opacity in pixels. -/
theorem pixel_opacity_passed_over :
    (ofFunction? "rgb" (commaForm (.leaf (.number 1) none) (.leaf (.number 2) none)
        (.leaf (.number 3) none) (.leaf (.dimension 4 "px") none) none none none)).isSome = true ∧
      (ofFunction? "rgb" (slashForm (.leaf (.number 1) none) (.leaf (.number 2) none)
        (.leaf (.number 3) none) (.leaf (.dimension 4 "px") none) none)).isSome = false := by
  decide +kernel

end Color

end DesignTokens

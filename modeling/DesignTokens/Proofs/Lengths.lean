import DesignTokens.Proofs.Css.NumericNodes
import DesignTokens.Proofs.Css.PrintedNumber
import DesignTokens.Value

/-!
Lengths after a modifier. A length that is converted or negated is written anew, unless it has the
unit already; what is written is a length again exactly if the new number is finite.
-/

namespace DesignTokens

open DesignTokens.Css DesignTokens.Number DesignTokens.Text

namespace Value

def unit? : Value → Option String
  | .absolute _ _ => some "px"
  | .relative _ _ unit => some unit
  | .color _ _ _ | .separator _ | .raw _ => none

/-- The number that a modifier writes anew. A length that has the unit already stays as it is. -/
def rewritten? (rootFontSize : Float) (modifier : Modifier) : Value → Option Float
  | .absolute _ pixels =>
    match modifier with
    | .convert .rem => some (pixels / rootFontSize)
    | .negate => some (-pixels)
    | .convert .px | .alpha _ => none
  | .relative _ amount unit =>
    match modifier with
    | .convert target => if target.name = unit then none else some (amount * rootFontSize)
    | .negate => some (-amount)
    | .alpha _ => none
  | .color _ _ _ | .separator _ | .raw _ => none

end Value

def Modifier.unitOf (unit : String) : Modifier → String
  | .convert target => target.name
  | .alpha _ | .negate => unit

def lengthUnits : List String :=
  "px" :: Value.rootRelativeUnits

/-! Units and their texts. -/

theorem Value.unit?_ofDimension (source : String) (amount : Float) (unit : String) :
    (Value.ofDimension source amount unit).unit? =
      if lowerCase unit ∈ lengthUnits then some (lowerCase unit) else none := by
  unfold Value.ofDimension lengthUnits
  by_cases pixels : lowerCase unit = "px"
  · rw [if_pos pixels, pixels, if_pos List.mem_cons_self]
    rfl
  · rw [if_neg pixels]
    by_cases root : lowerCase unit ∈ Value.rootRelativeUnits
    · rw [if_pos (by simpa using root), if_pos (List.mem_cons_of_mem _ root)]
      rfl
    · rw [if_neg (by simpa using root), if_neg (by simp [pixels, root])]
      rfl

theorem lowerCase_lengthUnit {unit : String} (length : unit ∈ lengthUnits) :
    lowerCase unit = unit ∧ name unit.toList = (unit.toList, []) := by
  revert unit
  decide +kernel

theorem eq_of_toLower {c lower upper : Char} (pair : upper.toNat + 32 = lower.toNat)
    (same : c.toLower = lower) : c = lower ∨ c = upper := by
  unfold Char.toLower at same
  split at same
  · rename_i capital
    right
    have code := congrArg Char.toNat same
    have bound : c.val.toNat ≤ 90 := UInt32.le_iff_toNat_le.1 capital.2
    have distance : ('a'.val - 'A'.val).toNat = 32 := by decide
    have total : (c.val + ('a'.val - 'A'.val)).toNat = c.val.toNat + 32 := by
      rw [UInt32.toNat_add, distance]
      omega
    change (c.val + ('a'.val - 'A'.val)).toNat = lower.toNat at code
    apply Char.toNat_inj.1
    change c.val.toNat = upper.toNat
    omega
  · exact Or.inl same

theorem lengthUnit_head {unit : String} (length : lowerCase unit ∈ lengthUnits) :
    ∃ c rest, unit.toList = c :: rest ∧ c ∈ ['p', 'P', 'r', 'R'] := by
  have first : ∀ unit ∈ lengthUnits, unit.toList.head? ∈ [some 'p', some 'r'] := by decide
  have head := first _ length
  rw [lowerCase, String.toList_ofList, List.head?_map] at head
  cases letters : unit.toList with
  | nil =>
    rw [letters] at head
    simp at head
  | cons c rest =>
    refine ⟨c, rest, rfl, ?_⟩
    rw [letters] at head
    simp only [List.head?_cons, Option.map_some, List.mem_cons, Option.some.injEq,
      List.not_mem_nil, or_false] at head
    rcases head with small | small
    · rcases eq_of_toLower (by rfl : 'P'.toNat + 32 = 'p'.toNat) small with rfl | rfl
      · simp
      · simp
    · rcases eq_of_toLower (by rfl : 'R'.toNat + 32 = 'r'.toNat) small with rfl | rfl
      · simp
      · simp

/-- The letters with which a unit starts do not go on a number, and start a name. -/
theorem of_unit_letter {u : Char} (letter : u ∈ ['p', 'P', 'r', 'R']) :
    (u.isDigit = false ∧ u ≠ '.' ∧ u ≠ 'e' ∧ u ≠ 'E') ∧
      u ≠ '\\' ∧ u ≠ '-' ∧ isNameStart u = true := by
  simp only [List.mem_cons, List.not_mem_nil, or_false] at letter
  rcases letter with rfl | rfl | rfl | rfl
  · decide
  · decide
  · decide
  · decide

theorem lengthUnit_text {suffix : List Char} {unit : String}
    (named : name suffix = (unit.toList, [])) (length : lowerCase unit ∈ lengthUnits) :
    Parted suffix ∧ startsName suffix = true := by
  obtain ⟨u, others, spelled, letter⟩ := lengthUnit_head length
  rw [spelled] at named
  cases suffix with
  | nil =>
    rw [name] at named
    cases named
  | cons c rest =>
    rw [name_cons] at named
    by_cases slash : c = '\\'
    · subst slash
      constructor
      · intro d head
        cases head
        decide
      · rw [startsName_cons, if_pos rfl]
        rw [if_pos rfl] at named
        split at named
        · cases named
        · rename_i unbroken
          simpa using unbroken
    · rw [if_neg slash] at named
      split at named
      · have same : readable c = u := (List.cons.inj (Prod.mk.inj named).1).1
        have own : c = u := by
          rw [← same, readable]
          split
          · rename_i nul
            rw [← same, nul] at letter
            exact absurd letter (by decide)
          · rfl
        rw [own]
        obtain ⟨parted, other, apart, starts⟩ := of_unit_letter letter
        constructor
        · intro d head
          cases head
          exact parted
        · rw [startsName_cons, if_neg other, if_neg apart, starts]
      · cases named

/-! A number and the unit of a length are a length. -/

theorem slice_whole (text : List Char) : slice text ⟨0, byteLength text⟩ = some text :=
  slice_eq_some_iff.2 ⟨[], [], by simp, by simp⟩

theorem parseValues_dimension {text unit : String} {number : Numeral}
    (single : lexemes text.toList = [⟨.dimension number unit, text.toList, 0⟩]) :
    parseValues .recorded text =
      [Value.ofDimension text (dimensionValue text.toList number unit) unit] := by
  have read := parse_values_token single rfl rfl
  have whole : (⟨0, 0 + byteLength text.toList⟩ : Span) = ⟨0, byteLength text.toList⟩ := by
    rw [Nat.zero_add]
  rw [parseValues, parseValue, Positions.keep, read, List.map_singleton, Node.text, Node.span,
    Option.bind_some, Lexeme.span, Lexeme.stop, whole, slice_whole, Option.map_some,
    String.ofList_toList]
  rfl

theorem length_alone {written suffix : List Char} {number : Numeral} {unit : String}
    (spelled : Spells written number) (named : name suffix = (unit.toList, []))
    (length : lowerCase unit ∈ lengthUnits) :
    ∃ other, parseValues .recorded (String.ofList (written ++ suffix)) = [other] ∧
      other.unit? = some (lowerCase unit) := by
  obtain ⟨parted, starts⟩ := lengthUnit_text named length
  have single := lexemes_dimension spelled parted starts named
  rw [← String.toList_ofList (l := written ++ suffix)] at single
  exact ⟨_, parseValues_dimension single, by rw [Value.unit?_ofDimension, if_pos length]⟩

theorem length_of_node {source : String} {node : Node} {unit : String}
    (length : (Value.ofNode source node).unit? = some unit) :
    ∃ amount spelled span, node = .leaf (.dimension amount spelled) span ∧
      lowerCase spelled ∈ lengthUnits ∧ lowerCase spelled = unit ∧
        (Value.ofNode source node).source = source := by
  cases node with
  | leaf leaf span =>
    cases leaf with
    | dimension amount spelled =>
      rw [Value.ofNode, Value.unit?_ofDimension] at length
      split at length
      · rename_i known
        refine ⟨amount, spelled, span, rfl, known, Option.some.inj length, ?_⟩
        rw [Value.ofNode, Value.ofDimension]
        split
        · rfl
        · split
          · rfl
          · rfl
      · contradiction
    | hash digits =>
      rw [Value.ofNode] at length
      split at length
      · contradiction
      · contradiction
    | ident name =>
      rw [Value.ofNode] at length
      split at length
      · contradiction
      · contradiction
    | operator symbol =>
      rw [Value.ofNode] at length
      split at length
      · contradiction
      · contradiction
    | quoted text => contradiction
    | number value => contradiction
    | percentage value => contradiction
    | raw text => contradiction
    | url text => contradiction
    | other text => contradiction
  | function name arguments span =>
    rw [Value.ofNode] at length
    split at length
    · contradiction
    · contradiction
  | block bracket children span => contradiction
  | atRule name prelude block span => contradiction

theorem length_source {text : String} {value : Value} {unit : String}
    (single : parseValues .recorded text = [value]) (length : value.unit? = some unit) :
    ∃ written suffix number spelled, value.source = String.ofList (written ++ suffix) ∧
      Spells written number ∧ name suffix = (String.toList spelled, []) ∧
        lowerCase spelled ∈ lengthUnits ∧ lowerCase spelled = unit := by
  rw [parseValues, parseValue, Positions.keep, List.map_eq_singleton_iff] at single
  obtain ⟨node, tree, rfl⟩ := single
  obtain ⟨amount, spelled, span, rfl, known, same, kept⟩ := length_of_node length
  have found : .leaf (.dimension amount spelled) span ∈ walk (parse .values text.toList) := by
    rw [tree]
    exact mem_walk_self _ _
  obtain ⟨place, source, rfl, cut, reading⟩ := numericReading_of_leaf found rfl
  rw [kept, Node.text, Node.span, Option.bind_some, cut]
  cases reading with
  | dimension part read named amount => exact ⟨_, _, _, _, rfl, part.spelled, named, known, same⟩

/-! What a modifier writes. -/

/-- What a modifier makes of a length: another number with its unit, or the text that it has. -/
theorem apply_length {value : Value} {unit result : String} {rootFontSize : Float}
    {modifier : Modifier} (length : value.unit? = some unit)
    (applied : value.apply rootFontSize modifier = some result) :
    (∃ number, value.rewritten? rootFontSize modifier = some number ∧
        result = cssText number ++ modifier.unitOf unit) ∨
      (value.rewritten? rootFontSize modifier = none ∧ result = value.source ∧
        modifier.unitOf unit = unit) := by
  cases value with
  | absolute source pixels =>
    cases length
    cases modifier with
    | convert target =>
      cases target with
      | px =>
        cases applied
        exact Or.inr ⟨rfl, rfl, rfl⟩
      | rem =>
        cases applied
        exact Or.inl ⟨_, rfl, rfl⟩
    | alpha opacity => contradiction
    | negate =>
      cases applied
      exact Or.inl ⟨_, rfl, rfl⟩
  | relative source amount own =>
    cases length
    cases modifier with
    | convert target =>
      rw [Value.apply] at applied
      split at applied
      · rename_i same
        cases applied
        exact Or.inr ⟨by rw [Value.rewritten?, if_pos same], rfl, same⟩
      · rename_i other
        split at applied
        · rename_i pixels
          cases applied
          refine Or.inl ⟨_, by rw [Value.rewritten?, if_neg other], ?_⟩
          simp at pixels
          rw [pixels.1]
          rfl
        · contradiction
    | alpha opacity => contradiction
    | negate =>
      cases applied
      exact Or.inl ⟨_, rfl, rfl⟩
  | color source form color => contradiction
  | separator source => contradiction
  | raw source => contradiction

theorem unitOf_lengthUnit {unit : String} (length : unit ∈ lengthUnits) (modifier : Modifier) :
    modifier.unitOf unit ∈ lengthUnits := by
  cases modifier with
  | convert target =>
    cases target with
    | px =>
      show "px" ∈ lengthUnits
      decide
    | rem =>
      show "rem" ∈ lengthUnits
      decide
  | alpha opacity => exact length
  | negate => exact length

theorem lexemes_word : ∀ word ∈ ["NaN", "-inf", "inf"], ∀ unit ∈ lengthUnits,
    lexemes (word ++ unit).toList = [⟨.ident (word ++ unit), (word ++ unit).toList, 0⟩] := by
  decide +kernel

theorem word_not_length {word unit : String} (written : word ∈ ["NaN", "-inf", "inf"])
    (length : unit ∈ lengthUnits) {other : Value}
    (read : parseValues .recorded (word ++ unit) = [other]) : other.unit? = none := by
  have tree := parse_values_token (lexemes_word word written unit length) rfl rfl
  rw [parseValues, parseValue, Positions.keep, tree, List.map_singleton, List.singleton_inj] at read
  rw [← read, Value.ofNode]
  split
  · rfl
  · rfl

/-- What a modifier makes of a length is read as one length in the unit that it asks for, exactly if
the number that it writes is finite. -/
theorem applied_length_reads_back {text unit result : String} {value : Value}
    {rootFontSize : Float} {modifier : Modifier} (single : parseValues .recorded text = [value])
    (length : value.unit? = some unit)
    (applied : value.apply rootFontSize modifier = some result) :
    (∃ other, parseValues .recorded result = [other] ∧
        other.unit? = some (modifier.unitOf unit)) ↔
      ∀ number, value.rewritten? rootFontSize modifier = some number → number.isFinite = true := by
  obtain ⟨written, suffix, numeral, spelled, source, spells, named, known, same⟩ :=
    length_source single length
  rw [same] at known
  rcases apply_length length applied with ⟨number, anew, rfl⟩ | ⟨kept, rfl, own⟩
  · have target := unitOf_lengthUnit known modifier
    generalize modifier.unitOf unit = goal at target
    obtain ⟨lower, read⟩ := lowerCase_lengthUnit target
    rw [anew]
    constructor
    · intro back other chosen
      obtain ⟨length, again, unit⟩ := back
      cases chosen
      cases finite : number.isFinite with
      | true => rfl
      | false =>
        rw [word_not_length (printed_word finite) target again] at unit
        contradiction
    · intro finite
      obtain ⟨printed, spells⟩ := printed_spells (finite number rfl)
      have alone := length_alone spells read (by rwa [lower])
      rwa [lower, String.ofList_append, String.ofList_toList, String.ofList_toList] at alone
  · rw [kept, source, own, ← same]
    constructor
    · intro _ number chosen
      contradiction
    · intro _
      exact length_alone spells named (by rwa [same])

theorem eight_pixels_read : parseValues .recorded "8px" = [.absolute "8px" 8.0] := by
  have single : lexemes "8px".toList =
      [⟨.dimension ⟨false, ['8'], [], none⟩ "px", "8px".toList, 0⟩] := by decide +kernel
  have amount : dimensionValue "8px".toList ⟨false, ['8'], [], none⟩ "px" = 8.0 := by
    decide +kernel
  rw [parseValues_dimension single, amount, Value.ofDimension, if_pos (by decide +kernel)]

theorem half_rem_reads_back :
    (∃ other, parseValues .recorded "0.5rem" = [other] ∧ other.unit? = some "rem") ↔
      ∀ number, some (8.0 / 16.0 : Float) = some number → number.isFinite = true := by
  have applied : Value.apply 16.0 (.convert .rem) (.absolute "8px" 8.0) = some "0.5rem" := by
    decide +kernel
  exact applied_length_reads_back eight_pixels_read rfl applied

theorem huge_rem_read : parseValues .recorded "2e307rem" = [.relative "2e307rem" 2e307 "rem"] := by
  have single : lexemes "2e307rem".toList =
      [⟨.dimension ⟨false, ['2'], [], some (false, ['3', '0', '7'])⟩ "rem", "2e307rem".toList,
        0⟩] := by
    decide +kernel
  have amount : dimensionValue "2e307rem".toList
      ⟨false, ['2'], [], some (false, ['3', '0', '7'])⟩ "rem" = 2e307 := by
    decide +kernel
  rw [parseValues_dimension single, amount, Value.ofDimension, if_neg (by decide +kernel),
    if_pos (by decide +kernel), Value.ofRelative, (lowerCase_lengthUnit (by decide)).1]

/-- A length that overflows in pixels is written as an identifier. -/
theorem overflow_not_length :
    ∃ value, parseValues .recorded "2e307rem" = [value] ∧ value.unit? = some "rem" ∧
      value.apply 16.0 (.convert .px) = some "infpx" ∧
        ¬ ∃ other, parseValues .recorded "infpx" = [other] ∧ other.unit? = some "px" := by
  refine ⟨_, huge_rem_read, rfl, by decide +kernel, ?_⟩
  intro back
  obtain ⟨other, read, unit⟩ := back
  have word : "inf" ∈ ["NaN", "-inf", "inf"] := by decide
  have pixels : "px" ∈ lengthUnits := by decide
  rw [word_not_length word pixels read] at unit
  contradiction

end DesignTokens

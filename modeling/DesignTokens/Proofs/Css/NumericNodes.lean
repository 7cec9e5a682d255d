import DesignTokens.Proofs.Css.Alone
import DesignTokens.Proofs.Css.NameAlone
import DesignTokens.Proofs.Css.NumberPart
import DesignTokens.Proofs.Css.Placement
import DesignTokens.Proofs.Css.RawValues
import DesignTokens.Proofs.Css.Unplaced

/-!
The numbers of a syntax tree. A number, a percentage or a dimension was read from one token, whose
text is the longest number it starts with and what comes after it. A number and a percentage carry
exactly the double that the written number stands for. A dimension does so where its unit is written
with as many bytes as it has; where escapes make the unit shorter than its text, the digits are
given up for a value in single precision, and where its text is shorter, digits are lost.
-/

namespace DesignTokens.Css

open DesignTokens.Text DesignTokens.Number

/-! The tokens that start with a number. -/

def Token.numeral? : Token → Option Numeral
  | .number numeral | .percentage numeral | .dimension numeral _ => some numeral
  | _ => none

theorem quotedToken_numeral? (quote : Char) (text : List Char) :
    (quotedToken quote text).1.numeral? = none := by
  rw [quotedToken_eq]
  cases (quoted quote text).1 <;> rfl

theorem hashToken_numeral? (text : List Char) : (hashToken text).1.numeral? = none := by
  rw [hashToken_eq]
  split <;> rfl

theorem atToken_numeral? (text : List Char) : (atToken text).1.numeral? = none := by
  unfold atToken
  split <;> rfl

theorem nameLike_numeral? (text : List Char) : (nameLike text).1.numeral? = none := by
  unfold nameLike urlAfter
  dsimp only
  split
  · split
    · split
      · rfl
      · split <;> rfl
    · rfl
  · rfl

theorem punctuation_numeral? (c : Char) : (punctuation c).numeral? = none := by
  unfold punctuation
  split <;> rfl

theorem symbol_numeral? (c : Char) (rest : List Char) : (symbol c rest).1.numeral? = none := by
  rw [symbol_eq]
  split
  · rfl
  · split
    · rfl
    · split
      · rfl
      · exact punctuation_numeral? c

theorem numeric_of_scan {c : Char} {rest : List Char} {numeral : Numeral}
    (found : (scan c rest).1.numeral? = some numeral) :
    startsNumber (c :: rest) = true ∧ scan c rest = numeric (c :: rest) := by
  unfold scan at found ⊢
  split at found
  · contradiction
  split at found
  · simp [quotedToken_numeral?] at found
  split at found
  · simp [hashToken_numeral?] at found
  split at found
  · simp [atToken_numeral?] at found
  split at found
  · rename_i space quote hash command number
    rw [if_neg space, if_neg quote, if_neg hash, if_neg command, if_pos number]
    exact ⟨number, rfl⟩
  split at found
  · contradiction
  split at found
  · simp [nameLike_numeral?] at found
  · simp [symbol_numeral?] at found

/-- A numeric token and its text. After the number of a dimension stands the text of its unit. -/
inductive NumericText : List Char → Token → Prop where
  | number {written : List Char} {number : Numeral} (part : NumberPart written written number) :
      NumericText written (.number number)
  | percentage {written : List Char} {number : Numeral}
      (part : NumberPart (written ++ ['%']) written number) :
      NumericText (written ++ ['%']) (.percentage number)
  | dimension {written suffix : List Char} {number : Numeral} {unit : String}
      (part : NumberPart (written ++ suffix) written number) (apart : EndsDigits suffix)
      (named : name suffix = (unit.toList, [])) :
      NumericText (written ++ suffix) (.dimension number unit)

theorem EndsDigits.left {text rest : List Char} (ends : EndsDigits (text ++ rest)) :
    EndsDigits text := by
  intro c head
  apply ends c
  rw [List.head?_append, head]
  rfl

theorem digit_not_letter {c : Char} (range : 48 ≤ c.toNat ∧ c.toNat ≤ 57) : c.isAlpha = false := by
  have letter : c.isAlpha = (c.isUpper || c.isLower) := rfl
  have upper : c.isUpper = decide (c.val ≥ 'A'.val ∧ c.val ≤ 'Z'.val) := rfl
  have lower : c.isLower = (decide (c.val ≥ 'a'.val) && decide (c.val ≤ 'z'.val)) := rfl
  have notUpper : ¬ c.val ≥ 'A'.val := by
    rw [ge_iff_le, UInt32.le_iff_toNat_le]
    exact Nat.not_le.2 (Nat.lt_of_le_of_lt range.2 (by decide))
  have notLower : ¬ c.val ≥ 'a'.val := by
    rw [ge_iff_le, UInt32.le_iff_toNat_le]
    exact Nat.not_le.2 (Nat.lt_of_le_of_lt range.2 (by decide))
  rw [letter, upper, lower, decide_eq_false fun both => notUpper both.1, decide_eq_false notLower]
  rfl

theorem nameStart_not_digit {c : Char} (starts : isNameStart c = true) : c.isDigit = false := by
  cases digit : c.isDigit with
  | false => rfl
  | true =>
    have range : 48 ≤ c.toNat ∧ c.toNat ≤ 57 := by
      simpa [Char.isDigit, UInt32.le_iff_toNat_le] using digit
    have other : c ≠ '_' ∧ c ≠ '\x00' := by
      constructor
      · rintro rfl
        contradiction
      · rintro rfl
        contradiction
    have below : ¬ 0x80 ≤ c.toNat := by omega
    rw [isNameStart, digit_not_letter range, decide_eq_false other.1, decide_eq_false other.2,
      decide_eq_false below] at starts
    contradiction

theorem endsDigits_of_startsName {text : List Char} (starts : startsName text = true) :
    EndsDigits text := by
  intro c head
  obtain ⟨rest, rfl⟩ := List.head?_eq_some_iff.1 head
  by_cases slash : c = '\\'
  · rw [slash]
    exact ⟨rfl, by decide⟩
  by_cases hyphen : c = '-'
  · rw [hyphen]
    exact ⟨rfl, by decide⟩
  rw [startsName_cons, if_neg slash, if_neg hyphen] at starts
  constructor
  · exact nameStart_not_digit starts
  · intro point
    rw [point] at starts
    contradiction

/-- What is read where a number starts is the longest number there and a unit or a percent sign
right after it. -/
theorem numeric_text {text : List Char} (starts : startsNumber text = true) :
    NumericText (consumed text (numeric text).2) (numeric text).1 := by
  obtain ⟨written, spelled, whole⟩ := numeral_spells starts
  have read : numeral (written ++ (numeral text).2) = ((numeral text).1, (numeral text).2) := by
    rw [← whole]
  have part (more : List Char) (within : more <+: (numeral text).2) :
      NumberPart (written ++ more) written (numeral text).1 :=
    numberPart_of_numeral spelled read (List.prefix_append written more)
      ((List.prefix_append_right_inj written).2 within)
  have cut (more rest : List Char) (split : (numeral text).2 = more ++ rest) :
      consumed text rest = written ++ more := by
    have same : text = written ++ more ++ rest := by
      rw [List.append_assoc, ← split]
      exact whole
    rw [same]
    exact consumed_of_append _ _
  unfold numeric
  dsimp only
  split
  · rename_i rest found
    have split : (numeral text).2 = ['%'] ++ rest := found
    rw [cut _ _ split]
    exact .percentage (part _ ⟨rest, split.symm⟩)
  · split
    · rename_i other unit
      obtain ⟨suffix, split⟩ := name_suffix (numeral text).2
      have alone : name suffix = ((name (numeral text).2).1, []) := by
        apply name_alone
        rw [split]
      have apart := endsDigits_of_startsName unit
      rw [← split] at apart
      rw [cut _ _ split.symm]
      apply NumericText.dimension (part _ ⟨_, split⟩) apart.left
      rw [alone, String.toList_ofList]
    · have all : consumed text (numeral text).2 = written ++ [] := cut [] (numeral text).2 rfl
      rw [List.append_nil] at all
      show NumericText (consumed text (numeral text).2) _
      rw [all]
      have own := part [] List.nil_prefix
      rw [List.append_nil] at own
      exact .number own

/-! What a dimension carries. -/

theorem digit_one_byte {c : Char} (digit : c.isDigit = true) : c.utf8Size = 1 := by
  rw [Char.utf8Size_eq_one_iff, UInt32.le_iff_toNat_le]
  have range : 48 ≤ c.toNat ∧ c.toNat ≤ 57 := by
    simpa [Char.isDigit, UInt32.le_iff_toNat_le] using digit
  exact Nat.le_trans range.2 (by decide)

theorem SpellsSign.ascii {sign : List Char} {negative : Bool} (signed : SpellsSign sign negative) :
    ∀ c ∈ sign, c.utf8Size = 1 := by
  cases signed with
  | unsigned => simp
  | plus => exact List.forall_mem_singleton.2 rfl
  | minus => exact List.forall_mem_singleton.2 rfl

theorem Spells.ascii {written : List Char} {number : Numeral} (spelled : Spells written number) :
    ∀ c ∈ written, c.utf8Size = 1 := by
  have plain {digits : List Char} (all : Digits digits) : ∀ c ∈ digits, c.utf8Size = 1 :=
    fun c member => digit_one_byte (all c member)
  cases spelled with
  | number signed digits fractional filled raised =>
    simp only [List.forall_mem_append]
    refine ⟨signed.ascii, plain digits, ?_, ?_⟩
    · cases fractional with
      | whole => simp
      | point after some_digit => exact List.forall_mem_cons.2 ⟨by decide, plain after⟩
    · cases raised with
      | plain => simp
      | power lettered powerSigned powerDigits powerFilled =>
        rw [List.forall_mem_cons, List.forall_mem_append]
        refine ⟨?_, powerSigned.ascii, plain powerDigits⟩
        rcases lettered with rfl | rfl
        · decide
        · decide

theorem byteLength_ascii {text : List Char} (ascii : ∀ c ∈ text, c.utf8Size = 1) :
    byteLength text = text.length := by
  induction text with
  | nil => rfl
  | cons c rest ih =>
    rw [List.forall_mem_cons] at ascii
    rw [byteLength_cons, ascii.1, ih ascii.2, List.length_cons, Nat.add_comm]

/-- The double that stands with a unit, by the bytes that the unit has and that its text has. -/
structure DimensionAmount (written suffix : List Char) (number : Numeral) (decimal : Decimal)
    (unit : String) (value : Float) : Prop where
  faithful : unit.utf8ByteSize = byteLength suffix → value = decimal.toFloat
  plain : '\\' ∉ suffix → '\x00' ∉ suffix → value = decimal.toFloat
  narrowed : unit.utf8ByteSize < byteLength suffix → value = storedValue number
  /-- As many digits at the end are lost as the unit has more bytes. -/
  shortened : byteLength suffix < unit.utf8ByteSize →
    value = ((Decimal.read (written.take
      (written.length - (unit.utf8ByteSize - byteLength suffix)))).map Decimal.toFloat).getD
        (storedValue number)

theorem dimensionValue_eq (text : List Char) (number : Numeral) (unit : String) :
    dimensionValue text number unit =
      ((if unit.utf8ByteSize ≤ byteLength text then
        (cutAt (byteLength text - unit.utf8ByteSize) text).bind fun cut => Decimal.read cut.1
      else none).map Decimal.toFloat).getD (storedValue number) := by
  unfold dimensionValue
  dsimp only
  split
  · rename_i decimal found
    rw [found]
    rfl
  · rename_i found
    rw [found]
    rfl

theorem dimensionValue_amount {written suffix : List Char} {number : Numeral}
    (part : NumberPart (written ++ suffix) written number) (apart : EndsDigits suffix)
    {unit : String} (named : name suffix = (unit.toList, [])) :
    DimensionAmount written suffix number (decimalOf number) unit
      (dimensionValue (written ++ suffix) number unit) := by
  have size : byteLength (written ++ suffix) = byteLength written + byteLength suffix :=
    byteLength_append _ _
  have faithful (same : unit.utf8ByteSize = byteLength suffix) :
      dimensionValue (written ++ suffix) number unit = (decimalOf number).toFloat := by
    have before : byteLength (written ++ suffix) - unit.utf8ByteSize = byteLength written := by
      omega
    rw [dimensionValue_eq, if_pos (by omega), before, cutAt_append, Option.bind_some,
      read_spelled part.spelled]
    rfl
  constructor
  · exact faithful
  · intro slash nul
    apply faithful
    rw [utf8ByteSize_eq, name_plain slash nul named]
  · intro longer
    rw [dimensionValue_eq]
    rw [if_pos (by omega)]
    cases cut : cutAt (byteLength (written ++ suffix) - unit.utf8ByteSize) (written ++ suffix) with
    | none => rfl
    | some parts =>
      obtain ⟨before, after⟩ := parts
      obtain ⟨whole, reach⟩ := cutAt_eq_some_iff.1 cut
      obtain ⟨more, rfl⟩ : written <+: before := by
        apply prefix_of_byteLength_le (List.prefix_append written suffix) ⟨after, whole.symm⟩
        omega
      rw [List.append_assoc] at whole
      have within : more <+: suffix := ⟨after, (List.append_cancel_left whole).symm⟩
      have filled : more ≠ [] := by
        intro empty
        rw [empty, List.append_nil] at reach
        omega
      have parted : EndsDigits more := by
        obtain ⟨rest, rfl⟩ := within
        exact apart.left
      rw [Option.bind_some, part.read_overrun within parted filled]
      rfl
  · intro shorter
    rw [dimensionValue_eq]
    have ascii := byteLength_ascii part.spelled.ascii
    generalize lost : unit.utf8ByteSize - byteLength suffix = count
    by_cases enough : unit.utf8ByteSize ≤ byteLength (written ++ suffix)
    · have kept : byteLength (written.take (written.length - count)) =
          byteLength (written ++ suffix) - unit.utf8ByteSize := by
        rw [byteLength_ascii fun c member => part.spelled.ascii c (List.mem_of_mem_take member),
          List.length_take]
        omega
      have split : written ++ suffix = written.take (written.length - count) ++
          (written.drop (written.length - count) ++ suffix) := by
        rw [← List.append_assoc, List.take_append_drop]
      rw [if_pos enough, ← kept]
      rw [split, cutAt_append, Option.bind_some]
    · have none_left : written.length - count = 0 := by omega
      rw [if_neg enough, none_left]
      rfl

/-! A number with a unit, and nothing else. -/

theorem scan_startsNumber {c : Char} {rest : List Char}
    (starts : startsNumber (c :: rest) = true) : scan c rest = numeric (c :: rest) := by
  have apart (d : Char) (plain : d.isDigit = false) (other : d ≠ '+' ∧ d ≠ '-' ∧ d ≠ '.') :
      c ≠ d := by
    rintro rfl
    have digits : startsNumber (c :: rest) = startsDigits (c :: rest) := by
      unfold startsNumber
      split
      · rename_i same
        exact absurd (List.cons.inj same).1 other.1
      · rename_i same
        exact absurd (List.cons.inj same).1 other.2.1
      · rfl
    rw [digits, startsDigits_cons, if_neg other.2.2, plain] at starts
    contradiction
  have blank : isSpace c = false := by
    simp [isSpace, isNewline, apart ' ' rfl (by decide), apart '\t' rfl (by decide),
      apart '\n' rfl (by decide), apart '\r' rfl (by decide), apart '\x0c' rfl (by decide)]
  rw [scan, blank, if_neg Bool.false_ne_true,
    if_neg (by simp [apart '"' rfl (by decide), apart '\'' rfl (by decide)]),
    if_neg (apart '#' rfl (by decide)), if_neg (apart '@' rfl (by decide)), if_pos starts]

variable {written suffix : List Char} {number : Numeral} {unit : String}

theorem lexemes_dimension (spelled : Spells written number) (parted : Parted suffix)
    (starts : startsName suffix = true) (named : name suffix = (unit.toList, [])) :
    lexemes (written ++ suffix) = [⟨.dimension number unit, written ++ suffix, 0⟩] := by
  have begins := startsNumber_spelled spelled suffix
  have read := (numeral_spelled spelled suffix).2 parted
  have token : numeric (written ++ suffix) = (.dimension number unit, []) := by
    rw [numeric, read]
    dsimp only
    split
    · rename_i rest
      contradiction
    · rw [if_pos starts, named, String.ofList_toList]
  generalize written ++ suffix = text at begins token
  cases text with
  | nil => contradiction
  | cons c rest =>
    rw [lexemes, lexemesFrom_cons, firstLexeme, scan_startsNumber begins, token, lexemesFrom]
    have whole : consumed (c :: rest) [] = c :: rest := by
      simpa using consumed_of_append (c :: rest) []
    rw [whole]

/-! Leaves and the lexemes that they were read from. -/

def FromLexeme (offset : Nat) (leaf : Leaf) (span : Option Span) (components : List Component) :
    Prop :=
  ∃ before lexeme after, componentLexemes components = before ++ lexeme :: after ∧
    lexeme.leaf = some leaf ∧ span = some ⟨offset + byteLength (lexemeText before),
      offset + byteLength (lexemeText before) + byteLength lexeme.text⟩

theorem FromLexeme.among {other offset : Nat} {leaf : Leaf} {span : Option Span}
    {inner outer : List Component} (known : FromLexeme other leaf span inner)
    (part : Part other inner offset outer) : FromLexeme offset leaf span outer := by
  obtain ⟨left, lexeme, right, split, read, place⟩ := known
  obtain ⟨before, after, whole, start⟩ := part
  refine ⟨before ++ left, lexeme, right ++ after, by simp [whole, split], read, ?_⟩
  rw [place, start]
  simp [Nat.add_assoc]

theorem Derives.leaf_lexeme {offset : Nat} {components : List Component} {nodes : List Node}
    (derived : Derives offset components nodes) {leaf : Leaf} {span : Option Span}
    (found : .leaf leaf span ∈ walk nodes) (cooked : ∀ text, leaf ≠ .raw text) :
    FromLexeme offset leaf span components := by
  induction derived with
  | nil => simp at found
  | skip plain following ih => exact (ih found).among (.token _ _)
  | @leaf offset lexeme leaf components nodes plain filled read following ih =>
    simp only [walk_cons, Node.children, walk_nil, List.nil_append, List.mem_cons] at found
    rcases found with self | later
    · obtain ⟨rfl, rfl⟩ := Node.leaf.inj self
      exact ⟨[], lexeme, componentLexemes components,
        by simp [componentLexemes, Component.lexemes], read, rfl⟩
    · exact (ih later).among (.token _ _)
  | @group offset bracket opener closer contents components nodes opens filled closes inside
      following insideIh ih =>
    simp only [walk_cons, enclose_children, List.mem_cons, List.mem_append] at found
    rcases found with self | below | later
    · exact absurd self.symm (enclose_ne_leaf _ _ _ _ _)
    · exact (insideIh below).among (.contents opener contents closer components)
    · exact (ih later).among (.rest _ _)
  | @raw offset value components nodes following ih =>
    simp only [walk_cons, List.mem_cons, List.mem_append] at found
    rcases found with self | below | later
    · exact absurd (Node.leaf.inj self).1 (cooked _)
    · simp [rawNode, Node.children] at below
    · exact (ih later).among (.after value components)
  | @rule offset command name header body components prelude nodes block named filled above below
      following aboveIh belowIh ih =>
    simp only [walk_cons, Node.children, walk_append, List.mem_cons, List.mem_append] at found
    rcases found with self | (upper | lower) | later
    · simp at self
    · exact (aboveIh upper).among (.header command header body components)
    · exact (belowIh lower).among (.body command header body components)
    · exact (ih later).among (.following command header body components)

/-- A leaf other than a raw value shows the text of one lexeme. -/
theorem leaf_slice {mode : Mode} {text : List Char} {leaf : Leaf} {span : Option Span}
    (found : .leaf leaf span ∈ walk (parse mode text)) (cooked : ∀ text, leaf ≠ .raw text) :
    ∃ lexeme place, lexeme ∈ lexemes text ∧ lexeme.leaf = some leaf ∧ span = some place ∧
      slice text place = some lexeme.text := by
  obtain ⟨before, lexeme, after, whole, read, rfl⟩ :=
    (parse_derives mode text).leaf_lexeme found cooked
  have covered := componentsText_components text
  rw [componentsText, whole, lexemeText_append, lexemeText_cons] at covered
  rw [componentLexemes_components] at whole
  refine ⟨lexeme, _, by simp [whole], read, rfl, slice_eq_some_iff.2 ⟨lexemeText before,
    lexemeText after, by rw [List.append_assoc, covered], ?_⟩⟩
  simp

/-! The numbers of a tree. -/

def Leaf.amount? : Leaf → Option Float
  | .number value | .percentage value | .dimension value _ => some value
  | _ => none

/-- How the number of a leaf was read from the text that the leaf shows. -/
inductive NumericReading : List Char → Leaf → Prop where
  | number {written : List Char} {number : Numeral} {decimal : Decimal}
      (part : NumberPart written written number) (read : Decimal.read written = some decimal) :
      NumericReading written (.number decimal.toFloat)
  | percentage {written : List Char} {number : Numeral} {decimal : Decimal}
      (part : NumberPart (written ++ ['%']) written number)
      (read : Decimal.read written = some decimal) :
      NumericReading (written ++ ['%']) (.percentage decimal.toFloat)
  | dimension {written suffix : List Char} {number : Numeral} {decimal : Decimal} {unit : String}
      {value : Float} (part : NumberPart (written ++ suffix) written number)
      (read : Decimal.read written = some decimal) (named : name suffix = (unit.toList, []))
      (amount : DimensionAmount written suffix number decimal unit value) :
      NumericReading (written ++ suffix) (.dimension value unit)

theorem Lexeme.leaf_numeral {lexeme : Lexeme} {leaf : Leaf} {value : Float}
    (read : lexeme.leaf = some leaf) (carried : leaf.amount? = some value) :
    ∃ numeral, lexeme.token.numeral? = some numeral := by
  obtain ⟨token, text, start⟩ := lexeme
  cases token with
  | number numeral => exact ⟨numeral, rfl⟩
  | percentage numeral => exact ⟨numeral, rfl⟩
  | dimension numeral unit => exact ⟨numeral, rfl⟩
  | space => contradiction
  | comment => contradiction
  | _ =>
    cases read
    contradiction

theorem numericReading_of_text {lexeme : Lexeme} {leaf : Leaf}
    (text : NumericText lexeme.text lexeme.token) (read : lexeme.leaf = some leaf) :
    NumericReading lexeme.text leaf := by
  obtain ⟨token, source, start⟩ := lexeme
  dsimp only at text
  cases text with
  | number part =>
    cases read
    exact .number part (read_spelled part.spelled)
  | percentage part =>
    cases read
    exact .percentage part (read_spelled part.spelled)
  | dimension part apart named =>
    cases read
    exact .dimension part (read_spelled part.spelled) named (dimensionValue_amount part apart named)

theorem numericReading_of_leaf {mode : Mode} {text : List Char} {leaf : Leaf} {span : Option Span}
    {value : Float} (found : .leaf leaf span ∈ walk (parse mode text))
    (carried : leaf.amount? = some value) :
    ∃ place source, span = some place ∧ slice text place = some source ∧
      NumericReading source leaf := by
  have cooked (other : String) : leaf ≠ .raw other := by
    rintro rfl
    contradiction
  obtain ⟨lexeme, place, scanned, read, rfl, cut⟩ := leaf_slice found cooked
  obtain ⟨begins, c, rest, rfl⟩ := lexeme_scanned scanned
  obtain ⟨numeral, numbered⟩ := Lexeme.leaf_numeral read carried
  obtain ⟨starts, same⟩ := numeric_of_scan numbered
  refine ⟨place, _, rfl, cut, numericReading_of_text ?_ read⟩
  rw [firstLexeme, same]
  exact numeric_text starts

/-- Every number, percentage and dimension of a tree carries the double of the number that its text
starts with, except for dimensions whose unit has another length than the text that spells it. -/
theorem numbers_read_from_text {positions : Positions} {mode : Mode} {text : List Char}
    {leaf : Leaf} {span : Option Span} {value : Float}
    (found : .leaf leaf span ∈ walk (positions.keep mode text))
    (carried : leaf.amount? = some value) :
    ∃ place source, .leaf leaf (some place) ∈ walk (parse mode text) ∧
      (positions = .recorded → span = some place) ∧ slice text place = some source ∧
        NumericReading source leaf := by
  have placed : ∃ own, .leaf leaf own ∈ walk (parse mode text) ∧
      (positions = .recorded → span = own) := by
    cases positions with
    | recorded => exact ⟨span, found, fun _ => rfl⟩
    | omitted =>
      rw [walk_keep_omitted, List.mem_map] at found
      obtain ⟨node, member, same⟩ := found
      cases node with
      | leaf other own =>
        cases same
        exact ⟨own, member, fun recorded => nomatch recorded⟩
      | function => contradiction
      | block => contradiction
      | atRule => contradiction
  obtain ⟨own, member, same⟩ := placed
  obtain ⟨place, source, rfl, cut, reading⟩ := numericReading_of_leaf member carried
  exact ⟨place, source, member, same, cut, reading⟩

theorem parse_plain_length :
    parse .values "1.5rem".toList = [.leaf (.dimension 1.5 "rem") (some ⟨0, 6⟩)] := by
  have single : lexemes "1.5rem".toList =
      [⟨.dimension ⟨false, ['1'], ['5'], none⟩ "rem", "1.5rem".toList, 0⟩] := by decide +kernel
  have value : dimensionValue "1.5rem".toList ⟨false, ['1'], ['5'], none⟩ "rem" = 1.5 := by
    decide +kernel
  have read := parse_values_token single rfl rfl
  rw [value] at read
  exact read

theorem plain_length_read :
    ∃ place source,
      .leaf (.dimension 1.5 "rem") (some place) ∈ walk (parse .values "1.5rem".toList) ∧
        (Positions.recorded = .recorded → some ⟨0, 6⟩ = some place) ∧
        slice "1.5rem".toList place = some source ∧
          NumericReading source (.dimension 1.5 "rem") := by
  have found : .leaf (.dimension 1.5 "rem") (some ⟨0, 6⟩) ∈
      walk (Positions.recorded.keep .values "1.5rem".toList) := by
    rw [Positions.keep, parse_plain_length]
    exact mem_walk_self _ _
  exact numbers_read_from_text found rfl

/-- The text of the escape has a byte less than the character, so the last digit is lost. -/
theorem parse_escaped_unit :
    parse .values "1.25\\0".toList = [.leaf (.dimension 1.2 "\ufffd") (some ⟨0, 6⟩)] := by
  have single : lexemes "1.25\\0".toList =
      [⟨.dimension ⟨false, ['1'], ['2', '5'], none⟩ "\ufffd", "1.25\\0".toList, 0⟩] := by
    decide +kernel
  have value : dimensionValue "1.25\\0".toList ⟨false, ['1'], ['2', '5'], none⟩ "\ufffd" = 1.2 := by
    decide +kernel
  have read := parse_values_token single rfl rfl
  rw [value] at read
  exact read

/-- An escape in a unit can make a dimension carry another number than the one in its text. -/
theorem escaped_unit_misread :
    ∃ value unit place source,
      .leaf (.dimension value unit) (some place) ∈ walk (parseValue .recorded "1.25\\0") ∧
        slice "1.25\\0".toList place = some source ∧
        ∀ written number decimal, NumberPart source written number →
          Decimal.read written = some decimal → value ≠ decimal.toFloat := by
  refine ⟨1.2, "\ufffd", ⟨0, 6⟩, "1.25\\0".toList, ?_, by decide +kernel, ?_⟩
  · rw [parseValue, Positions.keep, parse_escaped_unit]
    exact mem_walk_self _ _
  · intro written number decimal part read
    have own : NumberPart "1.25\\0".toList "1.25".toList ⟨false, ['1'], ['2', '5'], none⟩ :=
      numberPart_of_read (by decide +kernel : startsNumber ("1.25".toList ++ "\\0".toList) = true)
        (by decide +kernel)
    rw [← own.unique part, show Decimal.read "1.25".toList = some ⟨false, 125, -2⟩ by
      decide +kernel] at read
    cases read
    decide +kernel

end DesignTokens.Css

import DesignTokens.TokenPath
import DesignTokens.Proofs.Text.Cutting
import Mathlib.Data.List.Basic
import Mathlib.Data.List.Chain

/-!
Paths written with dots. A text has one division into pieces in which every dot between two digits
lies inside a piece and every other dot stands between two pieces. Reading a text and writing it
again gives the text when nothing was trimmed or left out, and the same holds the other way round.
-/

namespace DesignTokens

open DesignTokens.Text

/-- Every dot inside a piece stands between two digits of the piece. -/
def DecimalDots (piece : List Char) : Prop :=
  ∀ left right, piece = left ++ '.' :: right → isDecimalPoint left.getLast? right.head? = true

/-- A dot put between the two pieces would stand between two digits. -/
def MeetAtDigits (left right : List Char) : Prop :=
  isDecimalPoint left.getLast? right.head? = true

/-- A text as its pieces with a separator dot between each two. -/
structure DotPieces (text : List Char) (pieces : List (List Char)) : Prop where
  filled : pieces ≠ []
  joined : ['.'].intercalate pieces = text
  inside : ∀ piece ∈ pieces, DecimalDots piece
  between : pieces.IsChain fun left right => ¬ MeetAtDigits left right

/-! A dot is judged by its neighbours, and a dot among them is as good as nothing. -/

@[simp] theorem isDecimalPoint_none (before : Option Char) :
    isDecimalPoint before none = false := by
  simp [isDecimalPoint]

@[simp] theorem isDecimalPoint_before_dot (before : Option Char) :
    isDecimalPoint before (some '.') = false := by
  simp [isDecimalPoint]

theorem splitDots_after_dot (text : List Char) :
    splitDots (some '.') text = splitDots none text := by
  cases text <;> rfl

/-- The dots of a piece when some character stands in front of it. -/
def DecimalDotsAfter (before : Option Char) (piece : List Char) : Prop :=
  ∀ left right, piece = left ++ '.' :: right →
    isDecimalPoint (left.getLast?.or before) right.head? = true

theorem decimalDotsAfter_none {piece : List Char} :
    DecimalDotsAfter none piece ↔ DecimalDots piece := by
  simp [DecimalDotsAfter, DecimalDots]

theorem getLast?_cons_or (c : Char) (left : List Char) (before : Option Char) :
    (c :: left).getLast?.or before = left.getLast?.or (some c) := by
  rw [List.getLast?_cons]
  cases left.getLast? <;> rfl

theorem decimalDotsAfter_cons {before : Option Char} {c : Char} {rest : List Char} :
    DecimalDotsAfter before (c :: rest) ↔
      (c = '.' → isDecimalPoint before rest.head? = true) ∧ DecimalDotsAfter (some c) rest := by
  constructor
  · refine fun dots => ⟨fun dot => dots [] rest (by rw [dot, List.nil_append]), ?_⟩
    rintro left right rfl
    rw [← getLast?_cons_or c left before]
    exact dots (c :: left) right rfl
  · rintro ⟨first, later⟩ left right split
    cases left with
    | nil =>
      obtain ⟨dot, rfl⟩ := List.cons.inj split
      exact first dot
    | cons d left =>
      obtain ⟨rfl, following⟩ := List.cons.inj split
      rw [getLast?_cons_or]
      exact later left right following

/-- A decimal point has its second digit within the piece. -/
theorem isDecimalPoint_within {before : Option Char} {piece : List Char} (rest : List Char) :
    isDecimalPoint before (piece ++ '.' :: rest).head? = isDecimalPoint before piece.head? := by
  cases piece <;> simp

theorem splitDots_cons (before : Option Char) (c : Char) (rest : List Char) :
    splitDots before (c :: rest) =
      if c = '.' ∧ isDecimalPoint before rest.head? = false then [] :: splitDots (some c) rest
      else
        match splitDots (some c) rest with
        | piece :: others => (c :: piece) :: others
        | [] => [[c]] := by
  have separates : (decide (c = '.') && !isDecimalPoint before rest.head?) = true ↔
      c = '.' ∧ isDecimalPoint before rest.head? = false := by
    simp
  rw [splitDots]
  exact if_congr separates rfl rfl

theorem splitDots_last {before : Option Char} {piece : List Char}
    (dots : DecimalDotsAfter before piece) : splitDots before piece = [piece] := by
  induction piece generalizing before with
  | nil => rfl
  | cons c rest ih =>
    obtain ⟨first, later⟩ := decimalDotsAfter_cons.1 dots
    rw [splitDots_cons, if_neg (fun ⟨dot, separator⟩ => by simp [first dot] at separator), ih later]

theorem splitDots_next {before : Option Char} {piece rest : List Char}
    (dots : DecimalDotsAfter before piece)
    (separator : isDecimalPoint (piece.getLast?.or before) rest.head? = false) :
    splitDots before (piece ++ '.' :: rest) = piece :: splitDots none rest := by
  induction piece generalizing before with
  | nil =>
    rw [List.nil_append, splitDots_cons, if_pos ⟨rfl, separator⟩, splitDots_after_dot]
  | cons c tail ih =>
    obtain ⟨first, later⟩ := decimalDotsAfter_cons.1 dots
    rw [getLast?_cons_or] at separator
    rw [List.cons_append, splitDots_cons, isDecimalPoint_within,
      if_neg (fun ⟨dot, apart⟩ => by simp [first dot] at apart), ih later separator]

theorem exists_first_piece (before : Option Char) (text : List Char) :
    DecimalDotsAfter before text ∨ ∃ piece rest, text = piece ++ '.' :: rest ∧
      DecimalDotsAfter before piece ∧
        isDecimalPoint (piece.getLast?.or before) rest.head? = false := by
  induction text generalizing before with
  | nil => exact Or.inl fun left right split => by simp at split
  | cons c rest ih =>
    by_cases separator : c = '.' ∧ isDecimalPoint before rest.head? = false
    · refine Or.inr ⟨[], rest, by rw [separator.1, List.nil_append], ?_, separator.2⟩
      exact fun left right split => by simp at split
    · have decimal : c = '.' → isDecimalPoint before rest.head? = true := fun dot =>
        Bool.of_not_eq_false fun apart => separator ⟨dot, apart⟩
      rcases ih (some c) with whole | ⟨piece, tail, rfl, dots, ends⟩
      · exact Or.inl (decimalDotsAfter_cons.2 ⟨decimal, whole⟩)
      · rw [isDecimalPoint_within] at decimal
        refine Or.inr ⟨c :: piece, tail, rfl, decimalDotsAfter_cons.2 ⟨decimal, dots⟩, ?_⟩
        rwa [getLast?_cons_or]

/-- The dot after a piece sees the first character of the next piece, if that has any. -/
theorem isDecimalPoint_intercalate (before : Option Char) (piece : List Char)
    (others : List (List Char)) :
    isDecimalPoint before (['.'].intercalate (piece :: others)).head? =
      isDecimalPoint before piece.head? := by
  cases others with
  | nil => rw [List.intercalate_singleton]
  | cons next others =>
    rw [List.intercalate_cons_cons, List.append_assoc, List.singleton_append,
      isDecimalPoint_within]

theorem DotPieces.cons {piece text : List Char} {pieces : List (List Char)}
    (dots : DecimalDots piece) (separator : isDecimalPoint piece.getLast? text.head? = false)
    (following : DotPieces text pieces) : DotPieces (piece ++ '.' :: text) (piece :: pieces) := by
  obtain ⟨filled, joined, inside, between⟩ := following
  obtain ⟨next, others, rfl⟩ := List.exists_cons_of_ne_nil filled
  refine ⟨List.cons_ne_nil _ _, ?_, List.forall_mem_cons.2 ⟨dots, inside⟩, ?_⟩
  · rw [List.intercalate_cons_cons, joined, List.append_assoc, List.singleton_append]
  · refine List.isChain_cons_cons.2 ⟨?_, between⟩
    rw [MeetAtDigits, ← isDecimalPoint_intercalate _ next others, joined, separator]
    exact Bool.false_ne_true

theorem dotPieces_splitDots (text : List Char) : DotPieces text (splitDots none text) := by
  induction length : text.length using Nat.strongRecOn generalizing text with
  | ind count ih =>
    rcases exists_first_piece none text with whole | ⟨piece, rest, rfl, dots, ends⟩
    · rw [splitDots_last whole]
      exact ⟨by simp, List.intercalate_singleton, by simpa using decimalDotsAfter_none.1 whole,
        List.isChain_singleton _⟩
    · rw [splitDots_next dots ends]
      rw [Option.or_none] at ends
      refine DotPieces.cons (decimalDotsAfter_none.1 dots) ends (ih rest.length ?_ rest rfl)
      simp only [← length, List.length_append, List.length_cons]
      omega

theorem DotPieces.splitDots_eq {text : List Char} {pieces : List (List Char)}
    (divided : DotPieces text pieces) : splitDots none text = pieces := by
  obtain ⟨filled, rfl, inside, between⟩ := divided
  induction pieces with
  | nil => contradiction
  | cons piece others ih =>
    have dots := decimalDotsAfter_none.2 (inside piece List.mem_cons_self)
    cases others with
    | nil =>
      rw [List.intercalate_singleton]
      exact splitDots_last dots
    | cons next others =>
      obtain ⟨apart, chain⟩ := List.isChain_cons_cons.1 between
      have ends : isDecimalPoint (piece.getLast?.or none)
          (['.'].intercalate (next :: others)).head? = false := by
        rw [isDecimalPoint_intercalate, Option.or_none]
        exact Bool.of_not_eq_true apart
      rw [List.intercalate_cons_cons, List.append_assoc, List.singleton_append,
        splitDots_next dots ends, ih (List.cons_ne_nil _ _)
          (fun other member => inside other (List.mem_cons_of_mem _ member)) chain]

/-- A text has exactly one division at its separator dots. -/
theorem existsUnique_dotPieces (text : List Char) : ∃! pieces, DotPieces text pieces :=
  ⟨_, dotPieces_splitDots text, fun _ divided => divided.splitDots_eq.symm⟩

/-! What reading leaves of the pieces. -/

theorem ofPieces_concat (front : List (List Char)) (last : List Char) :
    (TokenPath.ofPieces (front ++ [last])).segments.map String.toList =
      front.map trim ++ if trim last = [] then [] else [trim last] := by
  have text : String.toList ∘ String.ofList = id := by
    funext letters
    exact String.toList_ofList
  simp only [TokenPath.ofPieces, List.map_append, List.map_singleton, List.getLast?_concat,
    Option.some.injEq, List.dropLast_concat]
  split
  · rw [List.map_map, text, List.map_id, List.append_nil]
  · rw [List.map_map, text, List.map_id]

theorem toList_dotPath (path : TokenPath) :
    path.dotPath.toList = ['.'].intercalate (path.segments.map String.toList) :=
  String.toList_ofList

theorem intercalate_concat (front : List (List Char)) (last : List Char) :
    ['.'].intercalate (front ++ [last]) = front.flatMap (· ++ ['.']) ++ last := by
  induction front with
  | nil => exact List.intercalate_singleton
  | cons first rest ih =>
    obtain ⟨next, others, shape⟩ := List.exists_cons_of_ne_nil
      (List.append_ne_nil_of_right_ne_nil rest (List.cons_ne_nil last []))
    rw [List.cons_append, shape, List.intercalate_cons_cons, ← shape, ih, List.flatMap_cons,
      List.append_assoc (first ++ ['.'])]

theorem map_trim {pieces : List (List Char)} (clean : ∀ piece ∈ pieces, trim piece = piece) :
    pieces.map trim = pieces :=
  (List.map_congr_left clean).trans (List.map_id' pieces)

/-- Pieces without blanks at their ends are kept as they are, an empty last one apart. -/
theorem ofPieces_clean {front : List (List Char)} {last : List Char}
    (clean : ∀ piece ∈ front ++ [last], trim piece = piece) :
    (TokenPath.ofPieces (front ++ [last])).segments.map String.toList =
      front ++ if last = [] then [] else [last] := by
  obtain ⟨before, solid⟩ := List.forall_mem_append.1 clean
  rw [ofPieces_concat, map_trim before, solid last (List.mem_singleton_self last)]

theorem length_dotted {texts : List (List Char)} (filled : texts ≠ []) :
    (texts.flatMap (· ++ ['.'])).length = (['.'].intercalate texts).length + 1 := by
  obtain ⟨front, last, rfl⟩ := (List.eq_nil_or_concat texts).resolve_left filled
  rw [List.concat_eq_append, intercalate_concat, List.flatMap_append, List.flatMap_singleton,
    ← List.append_assoc, List.length_append, List.length_singleton]

theorem dotted_trim (front : List (List Char)) :
    ((front.map trim).flatMap (· ++ ['.'])).length ≤ (front.flatMap (· ++ ['.'])).length ∧
      (((front.map trim).flatMap (· ++ ['.'])).length = (front.flatMap (· ++ ['.'])).length →
        ∀ piece ∈ front, trim piece = piece) := by
  induction front with
  | nil => simp
  | cons first rest ih =>
    obtain ⟨shorter, untouched⟩ := ih
    have part := (trim_within first).sublist
    have size := part.length_le
    simp only [List.map_cons, List.flatMap_cons, List.length_append, List.length_singleton]
    refine ⟨by omega, fun same => List.forall_mem_cons.2 ⟨?_, untouched (by omega)⟩⟩
    exact part.eq_of_length_le (by omega)

/-- Reading and writing pieces gives their text when nothing is trimmed and no last piece is left
out. -/
theorem intercalate_ofPieces_iff (front : List (List Char)) (last : List Char) :
    (TokenPath.ofPieces (front ++ [last])).dotPath.toList = ['.'].intercalate (front ++ [last]) ↔
      (∀ piece ∈ front ++ [last], trim piece = piece) ∧ (last = [] → front = []) := by
  rw [toList_dotPath, ofPieces_concat, List.forall_mem_append, List.forall_mem_singleton]
  obtain ⟨shorter, untouched⟩ := dotted_trim front
  have part := (trim_within last).sublist
  constructor
  · intro same
    by_cases empty : trim last = []
    · -- The dot in front of the last piece is not written, so there is none.
      rw [if_pos empty, List.append_nil, intercalate_concat] at same
      by_cases none : front = []
      · subst none
        have nothing : last = [] := by simpa using same.symm
        exact ⟨⟨by simp, by rw [empty, nothing]⟩, fun _ => rfl⟩
      · have sizes := congrArg List.length same
        rw [length_dotted (by simpa using none)] at shorter
        rw [List.length_append] at sizes
        omega
    · rw [if_neg empty, intercalate_concat, intercalate_concat] at same
      have sizes := congrArg List.length same
      rw [List.length_append, List.length_append] at sizes
      have size := part.length_le
      have solid : trim last = last := part.eq_of_length_le (by omega)
      refine ⟨⟨untouched (by omega), solid⟩, fun nothing => ?_⟩
      rw [← solid] at nothing
      contradiction
  · rintro ⟨⟨clean, solid⟩, alone⟩
    rw [solid, map_trim clean]
    by_cases empty : last = []
    · rw [if_pos empty, alone empty, empty]
      rfl
    · rw [if_neg empty]

theorem length_dotPath_ofDotPath (text : String) :
    (TokenPath.ofDotPath text).dotPath.toList.length ≤ text.toList.length := by
  have divided := dotPieces_splitDots text.toList
  obtain ⟨front, last, shape⟩ := (List.eq_nil_or_concat _).resolve_left divided.filled
  rw [List.concat_eq_append] at shape
  have joined := divided.joined
  rw [shape, intercalate_concat] at joined
  have shorter := (dotted_trim front).1
  have size := (trim_within last).sublist.length_le
  rw [← joined, List.length_append, toList_dotPath, TokenPath.ofDotPath, shape, ofPieces_concat]
  split
  · rw [List.append_nil]
    by_cases none : front = []
    · simp [none]
    · rw [length_dotted (by simpa using none)] at shorter
      omega
  · rw [intercalate_concat, List.length_append]
    omega

/-- A text that no part of reading changes: it ends with no dot, and no piece between its separator
dots has blanks at an end. -/
def CanonicalDotPath (text : List Char) : Prop :=
  text.getLast? ≠ some '.' ∧
    ∀ pieces, DotPieces text pieces → ∀ piece ∈ pieces, trim piece = piece

theorem canonicalDotPath_iff {text : List Char} {pieces : List (List Char)}
    (divided : DotPieces text pieces) :
    CanonicalDotPath text ↔ text.getLast? ≠ some '.' ∧ ∀ piece ∈ pieces, trim piece = piece := by
  refine and_congr_right fun _ => ⟨fun clean => clean pieces divided, fun clean others same => ?_⟩
  rwa [← same.splitDots_eq, divided.splitDots_eq]

instance (text : List Char) : Decidable (CanonicalDotPath text) :=
  decidable_of_iff _ (canonicalDotPath_iff (dotPieces_splitDots text)).symm

theorem DotPieces.ends_with_dot_iff {text last : List Char} {front : List (List Char)}
    (divided : DotPieces text (front ++ [last])) :
    text.getLast? ≠ some '.' ↔ (last = [] → front = []) := by
  have joined := divided.joined
  rw [intercalate_concat] at joined
  rcases List.eq_nil_or_concat last with rfl | ⟨inner, c, rfl⟩
  · rcases List.eq_nil_or_concat front with rfl | ⟨before, piece, rfl⟩
    · simp [← joined]
    · simp [← joined, List.flatMap_append]
  · have dots := divided.inside (inner.concat c) (by simp)
    have solid : c ≠ '.' := by
      rintro rfl
      have digit := dots inner [] List.concat_eq_append
      simp at digit
    simp [← joined, solid]

/-- The texts that are written as they are read. -/
theorem dotPath_ofDotPath_iff (text : String) :
    (TokenPath.ofDotPath text).dotPath = text ↔ CanonicalDotPath text.toList := by
  have divided := dotPieces_splitDots text.toList
  obtain ⟨front, last, shape⟩ := (List.eq_nil_or_concat _).resolve_left divided.filled
  rw [List.concat_eq_append] at shape
  rw [shape] at divided
  rw [← String.toList_inj, TokenPath.ofDotPath, shape]
  conv_lhs => rhs; rw [← divided.joined]
  rw [intercalate_ofPieces_iff, canonicalDotPath_iff divided, divided.ends_with_dot_iff, and_comm]

/-- Reading the text of segments divides it into just these when they are such pieces, none has
blanks at an end and the last one is not empty. -/
theorem ofDotPath_dotPath_iff {segments : List String} (some : segments ≠ []) :
    (TokenPath.ofDotPath (TokenPath.mk segments).dotPath).segments = segments ↔
      DotPieces (TokenPath.mk segments).dotPath.toList (segments.map String.toList) ∧
        (∀ segment ∈ segments, trimmed segment = segment) ∧ segments.getLast? ≠ Option.some "" := by
  have clean (piece : String) : trimmed piece = piece ↔ trim piece.toList = piece.toList := by
    rw [trimmed, ← String.toList_inj, String.toList_ofList]
  obtain ⟨front, last, rfl⟩ := (List.eq_nil_or_concat _).resolve_left some
  rw [List.concat_eq_append] at *
  have solid : (front ++ [last]).getLast? ≠ Option.some "" ↔ last.toList ≠ [] := by simp
  rw [TokenPath.ofDotPath, solid]
  constructor
  · intro same
    have divided := dotPieces_splitDots (TokenPath.mk (front ++ [last])).dotPath.toList
    obtain ⟨before, piece, shape⟩ := (List.eq_nil_or_concat _).resolve_left divided.filled
    rw [List.concat_eq_append] at shape
    rw [shape] at divided same
    have whole : (TokenPath.ofPieces (before ++ [piece])).dotPath.toList =
        ['.'].intercalate (before ++ [piece]) := by
      rw [divided.joined, ← same]
    obtain ⟨untouched, alone⟩ := (intercalate_ofPieces_iff before piece).1 whole
    have read := ofPieces_clean untouched
    rw [same] at read
    have filled : piece ≠ [] := by
      rintro rfl
      rw [alone rfl] at read
      simp at read
    rw [if_neg filled] at read
    refine ⟨read ▸ divided, fun segment member => (clean segment).2 (untouched _ ?_), ?_⟩
    · rw [← read]
      exact List.mem_map_of_mem member
    · rw [List.map_append, List.map_singleton] at read
      rwa [List.singleton_inj.1 (List.append_inj' read rfl).2]
  · rintro ⟨divided, untouched, filled⟩
    refine List.map_injective_iff.2 (fun _ _ => String.toList_injective) ?_
    have kept : ∀ piece ∈ (front ++ [last]).map String.toList, trim piece = piece :=
      List.forall_mem_map.2 fun segment member => (clean segment).1 (untouched segment member)
    rw [List.map_append, List.map_singleton] at divided kept ⊢
    rw [divided.splitDots_eq, ofPieces_clean kept, if_neg filled]

/-- The segments that are read as they are written: they have no blanks at their ends, their dots
are decimal points, no dot between two of them becomes one, and the last of them is not empty. -/
theorem segments_read_back_iff (segments : List String) :
    (TokenPath.ofDotPath (TokenPath.mk segments).dotPath).segments = segments ↔
      (∀ segment ∈ segments, trimmed segment = segment) ∧
      (∀ segment ∈ segments, DecimalDots segment.toList) ∧
      (segments.IsChain fun left right => ¬ MeetAtDigits left.toList right.toList) ∧
      segments.getLast? ≠ some "" := by
  by_cases empty : segments = []
  · subst empty
    have nothing : (TokenPath.ofDotPath (TokenPath.mk []).dotPath).segments = [] := rfl
    simp [nothing]
  · have filled : segments.map String.toList ≠ [] := by simpa using empty
    have inside : (∀ piece ∈ segments.map String.toList, DecimalDots piece) ↔
        ∀ segment ∈ segments, DecimalDots segment.toList := List.forall_mem_map
    rw [ofDotPath_dotPath_iff empty]
    constructor
    · rintro ⟨divided, clean, solid⟩
      exact ⟨clean, inside.1 divided.inside, (List.isChain_map _).1 divided.between, solid⟩
    · rintro ⟨clean, dots, apart, solid⟩
      exact ⟨⟨filled, (toList_dotPath _).symm, inside.2 dots, (List.isChain_map _).2 apart⟩, clean,
        solid⟩

example : (TokenPath.ofDotPath (TokenPath.mk ["size", "0.5", "", "x"]).dotPath).segments =
    ["size", "0.5", "", "x"] := by decide +kernel

/-- A dot between two digits is a decimal point, whichever segments the digits come from. -/
example : (TokenPath.ofDotPath (TokenPath.mk ["a", "1", "2"]).dotPath).segments = ["a", "1.2"] := by
  decide +kernel

end DesignTokens

/-!
Byte ranges of a text. Offsets count the bytes of the UTF-8 form, so an offset may fall inside a
character; cutting at such an offset is refused. Cutting at a fitting span and putting the pieces
together again gives back the text.
-/

namespace DesignTokens.Text

/-- The bytes `start ≤ i < stop` of some text. -/
structure Span where
  start : Nat
  stop : Nat
  deriving DecidableEq, Repr, Inhabited

namespace Span

def empty : Span := ⟨0, 0⟩

def shift (span : Span) (offset : Nat) : Span :=
  ⟨span.start + offset, span.stop + offset⟩

def length (span : Span) : Nat :=
  span.stop - span.start

def isEmpty (span : Span) : Bool :=
  span.length = 0

end Span

def byteLength (text : List Char) : Nat :=
  text.foldr (fun c length => c.utf8Size + length) 0

@[simp] theorem byteLength_nil : byteLength [] = 0 := rfl

@[simp] theorem byteLength_cons (c : Char) (rest : List Char) :
    byteLength (c :: rest) = c.utf8Size + byteLength rest := rfl

@[simp] theorem byteLength_append (left right : List Char) :
    byteLength (left ++ right) = byteLength left + byteLength right := by
  induction left with
  | nil => simp
  | cons c rest ih => simp [ih, Nat.add_assoc]

/-- Cuts the text after `offset` bytes, unless that is inside a character or past the end. -/
def cutAt : Nat → List Char → Option (List Char × List Char)
  | 0, text => some ([], text)
  | _ + 1, [] => none
  | offset + 1, c :: rest =>
    if c.utf8Size ≤ offset + 1 then
      (cutAt (offset + 1 - c.utf8Size) rest).map fun (before, after) => (c :: before, after)
    else
      none

def cutSpan (text : List Char) (span : Span) : Option (List Char × List Char × List Char) :=
  if span.start ≤ span.stop then
    match cutAt span.start text with
    | none => none
    | some (before, rest) =>
      match cutAt span.length rest with
      | none => none
      | some (inside, after) => some (before, inside, after)
  else
    none

def Span.fits (span : Span) (text : List Char) : Bool :=
  (cutSpan text span).isSome

def slice (text : List Char) (span : Span) : Option (List Char) :=
  (cutSpan text span).map fun (_, inside, _) => inside

def exchange (text : List Char) (span : Span) (replacement : List Char) : Option (List Char) :=
  (cutSpan text span).map fun (before, _, after) => before ++ replacement ++ after

theorem cutAt_sound {offset : Nat} {text before after : List Char}
    (cut : cutAt offset text = some (before, after)) :
    before ++ after = text ∧ byteLength before = offset := by
  induction text generalizing offset before with
  | nil =>
    cases offset with
    | zero => simp_all [cutAt]
    | succ offset => simp [cutAt] at cut
  | cons c rest ih =>
    cases offset with
    | zero => simp_all [cutAt]
    | succ offset =>
      simp only [cutAt] at cut
      split at cut
      · rename_i fits
        simp only [Option.map_eq_some_iff, Prod.mk.injEq] at cut
        obtain ⟨⟨inner, tail⟩, found, rfl, rfl⟩ := cut
        obtain ⟨joined, size⟩ := ih found
        exact ⟨by simp [joined], by simp [size]; omega⟩
      · contradiction

theorem cutAt_append (before after : List Char) :
    cutAt (byteLength before) (before ++ after) = some (before, after) := by
  induction before with
  | nil => cases after <;> simp [cutAt]
  | cons c rest ih =>
    have positive : 0 < c.utf8Size := c.utf8Size_pos
    obtain ⟨offset, size⟩ : ∃ offset, byteLength (c :: rest) = offset + 1 :=
      ⟨byteLength (c :: rest) - 1, by simp; omega⟩
    have remaining : offset + 1 - c.utf8Size = byteLength rest := by
      rw [← size]; simp
    have fits : c.utf8Size ≤ offset + 1 := by rw [← size]; simp
    rw [size, List.cons_append, cutAt, if_pos fits, remaining, ih]
    rfl

end DesignTokens.Text

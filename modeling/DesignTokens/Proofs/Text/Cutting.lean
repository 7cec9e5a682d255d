import DesignTokens.Text.Blank
import DesignTokens.Text.Span
import Mathlib.Data.List.TakeWhile

/-!
What a span cuts out of a text. A span fits exactly where the text falls into three parts of which
it names the middle one, so spans inside spans and spans of longer texts can be read off the parts.
-/

namespace DesignTokens.Text

theorem cutAt_eq_some_iff {offset : Nat} {text before after : List Char} :
    cutAt offset text = some (before, after) ↔
      text = before ++ after ∧ offset = byteLength before := by
  constructor
  · intro cut
    obtain ⟨joined, size⟩ := cutAt_sound cut
    exact ⟨joined.symm, size.symm⟩
  · rintro ⟨rfl, rfl⟩
    exact cutAt_append before after

theorem byteLength_eq_zero {text : List Char} (empty : byteLength text = 0) : text = [] := by
  cases text with
  | nil => rfl
  | cons c rest =>
    have positive := c.utf8Size_pos
    rw [byteLength_cons] at empty
    omega

theorem append_inj_byteLength {left other right rest : List Char}
    (same : left ++ right = other ++ rest) (size : byteLength left = byteLength other) :
    left = other ∧ right = rest := by
  have first := cutAt_append left right
  rw [size, same, cutAt_append other rest] at first
  cases first
  exact ⟨rfl, rfl⟩

theorem prefix_of_byteLength_le {text left right : List Char} (first : left <+: text)
    (second : right <+: text) (shorter : byteLength left ≤ byteLength right) : left <+: right := by
  rcases List.prefix_or_prefix_of_prefix first second with found | ⟨excess, split⟩
  · exact found
  · have size := congrArg byteLength split
    rw [byteLength_append] at size
    have nothing : excess = [] := byteLength_eq_zero (by omega)
    rw [nothing, List.append_nil] at split
    exact split ▸ List.prefix_refl _

theorem cutSpan_eq_some_iff {text before inside after : List Char} {span : Span} :
    cutSpan text span = some (before, inside, after) ↔
      text = before ++ inside ++ after ∧
        span = ⟨byteLength before, byteLength before + byteLength inside⟩ := by
  obtain ⟨start, stop⟩ := span
  constructor
  · intro cut
    unfold cutSpan at cut
    split at cut
    · rename_i ordered
      split at cut
      · contradiction
      · rename_i left rest first
        split at cut
        · contradiction
        · rename_i middle right second
          obtain ⟨whole, begins⟩ := cutAt_eq_some_iff.1 first
          obtain ⟨split, long⟩ := cutAt_eq_some_iff.1 second
          cases cut
          simp only [Span.length] at ordered begins long
          refine ⟨by rw [whole, split, List.append_assoc], ?_⟩
          rw [Span.mk.injEq]
          omega
    · contradiction
  · rintro ⟨rfl, same⟩
    cases same
    have first := cutAt_append before (inside ++ after)
    have second := cutAt_append inside after
    simp [cutSpan, Span.length, first, second]

theorem slice_eq_some_iff {text inside : List Char} {span : Span} :
    slice text span = some inside ↔
      ∃ before after, text = before ++ inside ++ after ∧
        span = ⟨byteLength before, byteLength before + byteLength inside⟩ := by
  simp only [slice, Option.map_eq_some_iff, Prod.exists, cutSpan_eq_some_iff]
  constructor
  · rintro ⟨before, middle, after, found, rfl⟩
    exact ⟨before, after, found⟩
  · rintro ⟨before, after, found⟩
    exact ⟨before, inside, after, found, rfl⟩

theorem Span.fits_iff {span : Span} {text : List Char} :
    span.fits text = true ↔ ∃ inside, slice text span = some inside := by
  rw [Span.fits, slice, Option.isSome_iff_exists]
  constructor
  · rintro ⟨parts, found⟩
    exact ⟨parts.2.1, by rw [found]; rfl⟩
  · rintro ⟨inside, found⟩
    obtain ⟨parts, cut, _⟩ := Option.map_eq_some_iff.1 found
    exact ⟨parts, cut⟩

theorem slice_length {text inside : List Char} {span : Span}
    (found : slice text span = some inside) : span.stop = span.start + byteLength inside := by
  obtain ⟨before, after, _, rfl⟩ := slice_eq_some_iff.1 found
  rfl

theorem slice_bound {text inside : List Char} {span : Span}
    (found : slice text span = some inside) : span.stop ≤ byteLength text := by
  obtain ⟨before, after, rfl, rfl⟩ := slice_eq_some_iff.1 found
  simp

theorem slice_slice {text middle inside : List Char} {outer inner : Span}
    (first : slice text outer = some middle) (second : slice middle inner = some inside) :
    slice text (inner.shift outer.start) = some inside := by
  obtain ⟨before, after, rfl, rfl⟩ := slice_eq_some_iff.1 first
  obtain ⟨left, right, rfl, rfl⟩ := slice_eq_some_iff.1 second
  refine slice_eq_some_iff.2 ⟨before ++ left, right ++ after, by simp, ?_⟩
  simp only [Span.shift, byteLength_append, Span.mk.injEq]
  omega

theorem slice_append_right {text inside : List Char} {span : Span}
    (found : slice text span = some inside) (after : List Char) :
    slice (text ++ after) span = some inside := by
  obtain ⟨left, right, rfl, rfl⟩ := slice_eq_some_iff.1 found
  exact slice_eq_some_iff.2 ⟨left, right ++ after, by simp, rfl⟩

theorem leadingBlanks_blank {text : List Char} : ∀ c ∈ leadingBlanks text, isBlank c = true :=
  fun _ member => List.mem_takeWhile_imp member

theorem trimEnd_split (text : List Char) :
    ∃ trailing, text = trimEnd text ++ trailing ∧ ∀ c ∈ trailing, isBlank c = true := by
  refine ⟨(text.reverse.takeWhile isBlank).reverse, ?_, fun c member => ?_⟩
  · rw [trimEnd, ← List.reverse_append, List.takeWhile_append_dropWhile, List.reverse_reverse]
  · exact List.mem_takeWhile_imp (List.mem_reverse.1 member)

theorem trim_split (text : List Char) :
    ∃ trailing, text = leadingBlanks text ++ trim text ++ trailing ∧
      ∀ c ∈ trailing, isBlank c = true := by
  obtain ⟨trailing, split, blank⟩ := trimEnd_split (trimStart text)
  refine ⟨trailing, ?_, blank⟩
  rw [List.append_assoc, trim, ← split, leadingBlanks_append_trimStart]

theorem trim_within (text : List Char) : trim text <:+: text := by
  obtain ⟨trailing, split, _⟩ := trim_split text
  exact ⟨leadingBlanks text, trailing, split.symm⟩

theorem trim_of_last (inner : List Char) {c : Char} (solid : isBlank c = false) :
    leadingBlanks (inner ++ [c]) ++ trim (inner ++ [c]) = inner ++ [c] := by
  have last : trimStart (inner ++ [c]) = trimStart inner ++ [c] := by
    rw [trimStart, trimStart, List.dropWhile_append]
    split
    · rename_i empty
      rw [List.isEmpty_iff] at empty
      rw [empty]
      simp [solid]
    · rfl
  have kept : trimEnd (trimStart inner ++ [c]) = trimStart inner ++ [c] := by
    simp [trimEnd, solid]
  rw [trim, last, kept, ← last]
  exact leadingBlanks_append_trimStart _

end DesignTokens.Text

import DesignTokens.Text.Span
import Mathlib.Data.List.Basic

/-!
Spans in the order of a tree. A span that comes later starts later, and it lies either inside the
earlier one or after it.
-/

namespace DesignTokens.Text

def Span.Precedes (earlier later : Span) : Prop :=
  earlier.start < later.start ∧ (later.stop ≤ earlier.stop ∨ earlier.stop ≤ later.start)

def Span.holds (span : Span) (offset : Nat) : Bool :=
  span.start ≤ offset && offset < span.stop

theorem Span.holds_iff {span : Span} {offset : Nat} :
    span.holds offset = true ↔ span.start ≤ offset ∧ offset < span.stop := by
  simp [Span.holds]

def Span.within (inner outer : Span) : Bool :=
  outer.start ≤ inner.start && inner.stop ≤ outer.stop

theorem Span.within_iff {inner outer : Span} :
    inner.within outer = true ↔ outer.start ≤ inner.start ∧ inner.stop ≤ outer.stop := by
  simp [Span.within]

theorem Span.within_shift (inner outer : Span) (offset : Nat) :
    (inner.shift offset).within (outer.shift offset) = inner.within outer := by
  rw [Bool.eq_iff_iff, Span.within_iff, Span.within_iff]
  simp only [Span.shift]
  omega

def Span.steps (span : Span) : List Span :=
  (List.range (span.stop - span.start)).map fun step =>
    ⟨span.start + step, span.start + step + 1⟩

theorem Span.mem_steps {span : Span} {offset : Nat} (held : span.holds offset = true) :
    ⟨offset, offset + 1⟩ ∈ span.steps := by
  obtain ⟨after, before⟩ := Span.holds_iff.1 held
  have place : span.start + (offset - span.start) = offset := by omega
  refine List.mem_map.2 ⟨offset - span.start, List.mem_range.2 (by omega), ?_⟩
  rw [place]

/-- Filled spans between two offsets, outer before inner ones and left before right. -/
structure SpanOrder (first last : Nat) (spans : List Span) : Prop where
  inside : ∀ span ∈ spans, first ≤ span.start ∧ span.start < span.stop ∧ span.stop ≤ last
  ordered : spans.Pairwise Span.Precedes

namespace SpanOrder

variable {first last : Nat} {spans : List Span}

theorem nil : SpanOrder first last [] :=
  ⟨by simp, .nil⟩

theorem mono (order : SpanOrder first last spans) {start stop : Nat} (before : start ≤ first)
    (after : last ≤ stop) : SpanOrder start stop spans := by
  refine ⟨fun span member => ?_, order.ordered⟩
  have bounds := order.inside span member
  omega

theorem sublist (order : SpanOrder first last spans) {some : List Span} (kept : some.Sublist spans) :
    SpanOrder first last some :=
  ⟨fun span member => order.inside span (kept.subset member), order.ordered.sublist kept⟩

theorem append {middle : Nat} {left right : List Span} (earlier : SpanOrder first middle left)
    (later : SpanOrder middle last right) (above : first ≤ middle) (below : middle ≤ last) :
    SpanOrder first last (left ++ right) := by
  refine ⟨fun span member => ?_, List.pairwise_append.2
    ⟨earlier.ordered, later.ordered, fun one found other also => ?_⟩⟩
  · rcases List.mem_append.1 member with found | found
    · exact (earlier.mono (Nat.le_refl _) below).inside span found
    · exact (later.mono above (Nat.le_refl _)).inside span found
  · have left := earlier.inside one found
    have right := later.inside other also
    refine ⟨?_, Or.inr ?_⟩ <;> omega

theorem around {start stop : Nat} (order : SpanOrder first last spans) (before : start < first)
    (after : last ≤ stop) (filled : start < stop) :
    SpanOrder start stop (⟨start, stop⟩ :: spans) := by
  refine ⟨fun span member => ?_, List.pairwise_cons.2 ⟨fun span member => ?_, order.ordered⟩⟩
  · rcases List.mem_cons.1 member with rfl | found
    · exact ⟨Nat.le_refl _, filled, Nat.le_refl _⟩
    · exact (order.mono (Nat.le_of_lt before) after).inside span found
  · have bounds := order.inside span member
    refine ⟨?_, Or.inl ?_⟩ <;> dsimp only <;> omega

theorem steps (span : Span) (ordered : span.start ≤ span.stop) :
    SpanOrder span.start span.stop span.steps := by
  refine ⟨fun part member => ?_, List.pairwise_map.2 ?_⟩
  · obtain ⟨step, found, rfl⟩ := List.mem_map.1 member
    have bound := List.mem_range.1 found
    dsimp only
    omega
  · apply List.pairwise_lt_range.imp
    intro one other before
    refine ⟨?_, Or.inr ?_⟩ <;> dsimp only <;> omega

theorem shift (order : SpanOrder first last spans) (offset : Nat) :
    SpanOrder (first + offset) (last + offset) (spans.map fun span => span.shift offset) := by
  refine ⟨fun span member => ?_, List.pairwise_map.2 (order.ordered.imp fun {one other} apart => ?_)⟩
  · obtain ⟨original, found, rfl⟩ := List.mem_map.1 member
    have bounds := order.inside original found
    simp only [Span.shift]
    omega
  · obtain ⟨later, nested⟩ := apart
    simp only [Span.Precedes, Span.shift]
    omega

end SpanOrder

/-! Lists that rise in a key, such as spans in where they start. -/

theorem nodup_of_rising {α : Type} (key : α → Nat) {list : List α}
    (rising : list.Pairwise fun one other => key one < key other) : list.Nodup :=
  rising.imp fun {one other} before same => by
    rw [same] at before
    exact Nat.lt_irrefl _ before

theorem eq_of_rising {α : Type} (key : α → Nat) {left right : List α}
    (first : left.Pairwise fun one other => key one < key other)
    (second : right.Pairwise fun one other => key one < key other)
    (same : ∀ item, item ∈ left ↔ item ∈ right) : left = right := by
  have perm : left.Perm right :=
    (List.perm_ext_iff_of_nodup (nodup_of_rising key first) (nodup_of_rising key second)).2 same
  exact perm.eq_of_pairwise
    (fun one other _ _ below above => absurd below (Nat.lt_asymm above)) first second

end DesignTokens.Text

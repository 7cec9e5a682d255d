import DesignTokens.Proofs.Css.NodeSpans

/-!
How a tree lies in its text. Nodes side by side follow each other without overlapping, the nodes
below a node lie inside it, and each of them shows a part of the text: a raw value exactly that
part, any other node one that is not empty.
-/

namespace DesignTokens.Css

open DesignTokens.Text

def StandsAt (source : List Char) (offset : Nat) (text : List Char) : Prop :=
  ∃ before after, source = before ++ text ++ after ∧ offset = byteLength before

namespace StandsAt

variable {source text other : List Char} {offset : Nat}

theorem left (stands : StandsAt source offset (text ++ other)) : StandsAt source offset text := by
  obtain ⟨before, after, whole, place⟩ := stands
  exact ⟨before, other ++ after, by simp [whole], place⟩

theorem right (stands : StandsAt source offset (text ++ other)) :
    StandsAt source (offset + byteLength text) other := by
  obtain ⟨before, after, whole, place⟩ := stands
  exact ⟨before ++ text, after, by simp [whole], by simp [place]⟩

theorem slice (stands : StandsAt source offset text) :
    Text.slice source ⟨offset, offset + byteLength text⟩ = some text := by
  obtain ⟨before, after, whole, place⟩ := stands
  exact slice_eq_some_iff.2 ⟨before, after, whole, by rw [place]⟩

end StandsAt

def Node.Shows (inside : List Char) : Node → Prop
  | .leaf (.raw text) _ => text = String.ofList inside
  | _ => inside ≠ []

theorem Node.shows_of_cooked {node : Node} {inside : List Char}
    (cooked : ∀ text place, node ≠ .leaf (.raw text) place) (filled : inside ≠ []) :
    node.Shows inside := by
  unfold Node.Shows
  split
  · exact absurd rfl (cooked _ _)
  · exact filled

/-- Nodes between two offsets of a text, one after the other, and below each of them its own. -/
inductive Laid (source : List Char) : Nat → Nat → List Node → Prop where
  | nil {first last : Nat} (ordered : first ≤ last) : Laid source first last []
  | cons {first start stop last : Nat} {node : Node} {rest : List Node} {inside : List Char}
      (located : node.span = some ⟨start, stop⟩)
      (cut : Text.slice source ⟨start, stop⟩ = some inside) (shown : node.Shows inside)
      (after : first ≤ start) (below : Laid source start stop node.children)
      (following : Laid source stop last rest) : Laid source first last (node :: rest)

namespace Laid

variable {source : List Char} {first middle last : Nat} {nodes others : List Node}

theorem ordered (laid : Laid source first last nodes) : first ≤ last := by
  induction laid with
  | nil ordered => exact ordered
  | cons located cut shown after below following belowIh ih => omega

theorem mono (laid : Laid source first last nodes) {start stop : Nat} (before : start ≤ first)
    (after : last ≤ stop) : Laid source start stop nodes := by
  induction laid generalizing start with
  | nil ordered => exact .nil (by omega)
  | cons located cut shown within below following belowIh ih =>
    exact .cons located cut shown (by omega) below (ih (Nat.le_refl _) after)

theorem append (earlier : Laid source first middle nodes) (later : Laid source middle last others) :
    Laid source first last (nodes ++ others) := by
  induction earlier with
  | nil ordered => exact later.mono ordered (Nat.le_refl _)
  | cons located cut shown after below following belowIh ih =>
    exact .cons located cut shown after below (ih later)

theorem bounds (laid : Laid source first last nodes) {node : Node} (member : node ∈ nodes) :
    ∃ span, node.span = some span ∧ first ≤ span.start ∧ span.stop ≤ last := by
  induction laid with
  | nil => contradiction
  | @cons first start stop last head rest inside located cut shown after below following _ ih =>
    have ends := following.ordered
    rcases List.mem_cons.1 member with rfl | found
    · exact ⟨_, located, after, ends⟩
    · obtain ⟨span, place, begins, bound⟩ := ih found
      have begin := below.ordered
      exact ⟨span, place, by omega, bound⟩

end Laid

def Node.Before (earlier later : Node) : Prop :=
  ∃ one other, earlier.span = some one ∧ later.span = some other ∧ one.stop ≤ other.start

theorem Laid.pairwise {source : List Char} {first last : Nat} {nodes : List Node}
    (laid : Laid source first last nodes) : nodes.Pairwise Node.Before := by
  induction laid with
  | nil => exact .nil
  | cons located cut shown after below following belowIh ih =>
    refine .cons (fun other member => ?_) ih
    obtain ⟨span, place, begins, _⟩ := following.bounds member
    exact ⟨_, span, located, place, begins⟩

/-- Where a node of a tree stands in the text that the tree was read from. -/
structure Node.Placed (source : List Char) (node : Node) (span : Span) : Prop where
  located : node.span = some span
  bounded : span.start ≤ span.stop ∧ span.stop ≤ byteLength source
  fits : span.fits source = true
  /-- Only a raw value may be empty. -/
  filled : span.start = span.stop → ∃ text, node = .leaf (.raw text) (some span)
  verbatim : ∀ text, node = .leaf (.raw text) (some span) → slice source span = some text.toList
  within : ∀ child ∈ node.children, ∃ inner, child.span = some inner ∧
    span.start ≤ inner.start ∧ inner.stop ≤ span.stop
  ordered : node.children.Pairwise Node.Before

theorem Laid.placed {source : List Char} {first last : Nat} {nodes : List Node}
    (laid : Laid source first last nodes) {node : Node} (member : node ∈ walk nodes) :
    ∃ span, node.Placed source span := by
  induction laid with
  | nil => contradiction
  | @cons first start stop last head rest inside located cut shown after below following
      belowIh ih =>
    rw [walk_cons, List.mem_cons, List.mem_append] at member
    rcases member with rfl | deeper | later
    · have long := slice_length cut
      refine ⟨⟨start, stop⟩, located, ⟨below.ordered, slice_bound cut⟩,
        Span.fits_iff.2 ⟨inside, cut⟩, fun empty => ?_, fun text raw => ?_,
        fun child => below.bounds, below.pairwise⟩
      · have nothing : inside = [] := byteLength_eq_zero (by dsimp only at long empty; omega)
        unfold Node.Shows at shown
        split at shown
        · cases located
          exact ⟨_, rfl⟩
        · exact absurd nothing shown
      · rw [raw] at shown
        rw [cut, show text = String.ofList inside from shown, String.toList_ofList]
    · exact belowIh deeper
    · exact ih later

/-- The nodes that are read from components lie in the text of the components. -/
theorem Derives.laid {offset : Nat} {components : List Component} {nodes : List Node}
    (derived : Derives offset components nodes) {source : List Char}
    (stands : StandsAt source offset (componentsText components)) :
    Laid source offset (offset + byteLength (componentsText components)) nodes := by
  induction derived with
  | nil => exact .nil (Nat.le_add_right _ _)
  | skip plain following ih =>
    rw [componentsText_cons, Component.text_token] at stands ⊢
    rw [byteLength_append, ← Nat.add_assoc]
    exact (ih stands.right).mono (Nat.le_add_right _ _) (Nat.le_refl _)
  | @leaf offset lexeme leaf components nodes plain filled read following ih =>
    rw [componentsText_cons, Component.text_token] at stands ⊢
    rw [byteLength_append, ← Nat.add_assoc]
    have cooked (text : String) (place : Option Span) :
        Node.leaf leaf (some ⟨offset, offset + byteLength lexeme.text⟩) ≠ .leaf (.raw text) place :=
      fun same => Lexeme.leaf_ne_raw read text (Node.leaf.inj same).1
    exact .cons rfl stands.left.slice (Node.shows_of_cooked cooked filled) (Nat.le_refl _)
      (.nil (Nat.le_add_right _ _)) (ih stands.right)
  | @group offset bracket opener closer contents components nodes opens filled closes inside
      following insideIh ih =>
    rw [componentsText_cons] at stands ⊢
    rw [byteLength_append, ← Nat.add_assoc]
    have own := stands.left
    rw [Component.text_group, List.append_assoc] at own
    have below := insideIh own.right.left
    have solid : (Component.group opener contents closer).text ≠ [] := by
      simp [Component.text_group, filled]
    refine .cons (enclose_span _ _ _) stands.left.slice
      (Node.shows_of_cooked (fun text => enclose_ne_leaf _ _ _ (.raw text)) solid) (Nat.le_refl _)
      ?_ (ih stands.right)
    rw [enclose_children]
    exact below.mono (Nat.le_add_right _ _) (by simp [Component.text_group]; omega)
  | @raw offset value components nodes following ih =>
    rw [componentsText_append] at stands ⊢
    rw [byteLength_append, ← Nat.add_assoc]
    obtain ⟨trailing, split, -⟩ := trim_split (componentsText value)
    have own := stands.left
    rw [split] at own
    have shown : (rawNode offset (componentsText value)).Shows (trim (componentsText value)) := rfl
    refine .cons rfl own.left.right.slice shown (Nat.le_add_right _ _)
      (.nil (Nat.le_add_right _ _)) ((ih stands.right).mono ?_ (Nat.le_refl _))
    have size := congrArg byteLength split
    simp only [byteLength_append] at size
    omega
  | @rule offset command name header body components prelude nodes block named filled above below
      following aboveIh belowIh ih =>
    have text : componentsText (.token command :: header ++ body ++ components) =
        command.text ++ componentsText (header ++ body) ++ componentsText components := by simp
    rw [text] at stands ⊢
    rw [byteLength_append, ← Nat.add_assoc]
    have own := stands.left
    rw [componentsText_append] at own
    have upper := aboveIh own.right.left
    have lower := belowIh (by simpa [Nat.add_assoc] using own.right.right)
    have parts : Laid _ _ _ (prelude ++ block.toList) :=
      upper.append (lower.mono (by simp [Nat.add_assoc]) (Nat.le_refl _))
    refine .cons rfl stands.left.slice (by simp [Node.Shows, filled]) (Nat.le_refl _)
      (parts.mono (Nat.le_add_right _ _) ?_) (ih stands.right)
    simp [Nat.add_assoc]

theorem parse_laid (mode : Mode) (text : List Char) :
    Laid text 0 (byteLength text) (parse mode text) := by
  have stands : StandsAt text 0 (componentsText (components text)) :=
    ⟨[], [], by simp, rfl⟩
  simpa using (parse_derives mode text).laid stands

end DesignTokens.Css
